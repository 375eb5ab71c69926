import TypedTree.Proofs.Meaning

/-!
# Visits keep the meaning of pure expressions

On the fragment of pure expressions, whatever a visit makes of an expression has its readings (`Visits.stands`), provided
the evaluators do what the interpretation says and conditionals are not merged. Each step has its reason: a throw stands
for what evaluates it first (`Throws.outcome`), a branch for what evaluates to it (`Chooses.outcome`), a constant for the
call that gave it, and an inlined body for an invocation by the substitution lemma.
-/

namespace TypedTree

/-! ### Outcomes of lists of expressions -/

section

variable {I : Interpretation} {c : Catalog} {env : Env}

theorem mapM_of_knows {es : List Expr} {values : List Value} (h : c.facts.Knows es values) :
    es.mapM (fun e => (I.denote e).value env) = some values := by
  induction h with
  | nil => rfl
  | cons hv _ ih => simp [I.value_of_known hv, ih]

theorem mapM_of_throws {pre post : List Expr} {t : Expr} (ht : (I.denote t).value env = none) :
    (pre ++ t :: post).mapM (fun e => (I.denote e).value env) = none := by
  rw [List.mapM_append, List.mapM_cons, ht]
  cases pre.mapM fun e => (I.denote e).value env <;> rfl

/-- Tests that are known to differ are passed over. -/
theorem selectOutcome_of_misses {value : Value} {otherwise : Outcome} {passed rest : List (Expr × Expr)}
    (h : ∀ p ∈ passed, ∃ v, p.1.constantValue? = some v ∧ value.defaultEquals v = false) :
    selectOutcome value otherwise ((passed ++ rest).map fun p => ((I.denote p.1).value env, (I.denote p.2).value env)) =
      selectOutcome value otherwise (rest.map fun p => ((I.denote p.1).value env, (I.denote p.2).value env)) := by
  induction passed with
  | nil => rfl
  | cons p passed ih =>
    obtain ⟨v, hv, hne⟩ := h p List.mem_cons_self
    rw [← ih fun q hq => h q (List.mem_cons_of_mem _ hq)]
    simp [selectOutcome, I.value_of_known hv, hne]

end

namespace Interpretation

variable {I : Interpretation} {c : Catalog} {use : Use} {e n r : Expr} {env : Env}

/-- `b`, used in some way, can be put in the place of `a` and has its readings. -/
structure Stands (I : Interpretation) (c : Catalog) (use : Use) (a b : Expr) : Prop extends c.Fits use a b where
  denote : I.denote b = I.denote a

theorem Stands.refl (he : c.Fragment use e) : I.Stands c use e e := ⟨⟨he, rfl, fun _ => id⟩, rfl⟩

theorem Stands.trans (h : I.Stands c use e n) (h' : I.Stands c use n r) : I.Stands c use e r :=
  ⟨⟨h'.fragment, h'.ty.trans h.ty, fun v hv => h'.constant v (h.constant v hv)⟩, h'.denote.trans h.denote⟩

theorem Stands.of_rel {R : Expr → Expr → Prop} (he : c.Fragment use e) (hrel : Form.Rel R e.form n.form)
    (hty : n.ty = e.ty) (hR : ∀ use a b, R a b → c.Fragment use a → I.Stands c use a b) : I.Stands c use e n := by
  refine ⟨.of_rel he hrel hty fun use a b hab ha => (hR use a b hab ha).toFits, denote_of_rel ?_ hty⟩
  refine hrel.imp fun a ha b hab => ?_
  obtain ⟨use, hmem⟩ := Form.mem_uses ha
  exact (hR use a b hab (he.child hmem)).denote.symm

/-- What is evaluated is no function literal. -/
theorem result_eq_none (he : c.Fragment .evaluated e) : (I.denote e).result = fun _ _ => none := by
  have hform := he.here
  rw [denote_eq]
  generalize e.form = form at hform
  cases form with
  | lambda => cases hform
  | _ => rfl

/-- An expression stands for another when it has its outcomes. -/
theorem Stands.of_eval (hn : c.Fragment .evaluated n) (hconstant : ∀ value, n.form ≠ .constant value)
    (hr : c.Fragment .evaluated r) (hty : r.ty = n.ty) (heval : ∀ env, I.eval r env = I.eval n env) :
    I.Stands c .evaluated n r := by
  refine ⟨⟨hr, hty, fun value h => absurd h (hconstant value)⟩, Denotation.ext (funext heval) ?_⟩
  rw [result_eq_none hn, result_eq_none hr]

theorem eval_of_form {form : Form Expr} (h : e.form = form) (env : Env) :
    I.eval e env = I.evalForm e.ty (form.map I.denote) env := by
  rw [eval, denote_of_form I h]
  rfl

theorem eval_of_throws (h : e.isThrow = true) (env : Env) : I.eval e env = none := by
  unfold Expr.isThrow at h
  split at h
  · next hf => rw [eval_of_form hf]; rfl
  · cases h

end Interpretation

/-! ### Steps -/

namespace Optimizer

open Interpretation

variable {σ κ : Type} {o : Optimizer σ κ} {c : Catalog} {I : Interpretation} {cx : Context} {use : Use} {e n r : Expr}

/-- The optimizer goes by the catalog and runs what the interpretation says; it does not merge conditionals. -/
structure Interpreted (o : Optimizer σ κ) (c : Catalog) (I : Interpretation) : Prop where
  facts : o.facts = c.facts
  agrees : I.Agrees c o.evaluators
  flattening : o.settings.flattening = false

/-- The sub-expressions of a node that is evaluated, invocations apart. -/
theorem fragment_child {form : Form Expr} (hn : c.Fragment use n) (hf : n.form = form)
    (hplain : form.uses = form.map (.evaluated, ·)) {a : Expr} (ha : a ∈ form.children) : c.Fragment .evaluated a := by
  refine hn.child (p := (.evaluated, a)) ?_
  rw [hf, hplain, Form.children_map]
  exact List.mem_map_of_mem ha

theorem fragment_callee {callee : Expr} {args : List Expr} (hn : c.Fragment use n) (hf : n.form = .invoke callee args) :
    c.Fragment .invoked callee ∧ ∀ a ∈ args, c.Fragment .evaluated a := by
  have huses : ∀ p ∈ (Form.invoke callee args).uses.children, c.Fragment p.1 p.2 := fun p hp =>
    hn.child (by rw [hf]; exact hp)
  simpa [Form.uses, Form.children] using huses

theorem lambda_of_invoked (hn : c.Fragment .invoked n) : ∃ params body, n.form = .lambda params body := by
  have hform := hn.here
  cases hf : n.form with
  | lambda params body => exact ⟨params, body, rfl⟩
  | _ => rw [hf] at hform; cases hform

/-- The operands of a node are the arguments of a call or of an invocation. -/
theorem operands_cases (hn : c.Fragment .evaluated n) (hops : n.form.operands ≠ []) :
    (∃ method, n.form = .call none method n.form.operands) ∨ ∃ callee, n.form = .invoke callee n.form.operands := by
  have hform := hn.here
  cases hf : n.form with
  | call receiver method args =>
    rw [hf] at hform
    cases receiver with
    | some => cases hform
    | none => exact .inl ⟨method, rfl⟩
  | invoke callee args =>
    obtain ⟨params, body, hc⟩ := lambda_of_invoked (fragment_callee hn hf).1
    refine .inr ⟨callee, ?_⟩
    rw [Form.operands, hc]
  | access | new | newArray | index => rw [hf] at hform; cases hform
  | _ => rw [hf] at hops; exact absurd rfl hops

theorem fragment_operand (hn : c.Fragment .evaluated n) {a : Expr} (ha : a ∈ n.form.operands) :
    c.Fragment .evaluated a := by
  obtain ⟨method, hf⟩ | ⟨callee, hf⟩ := operands_cases hn (List.ne_nil_of_mem ha)
  · exact fragment_child hn hf rfl ha
  · exact (fragment_callee hn hf).2 a ha

/-- A throw among the arguments is the outcome. -/
theorem eval_of_operand {pre post : List Expr} {t : Expr} (hn : c.Fragment .evaluated n)
    (hops : n.form.operands = pre ++ t :: post) (ht : ∀ env, I.eval t env = none) (env : Env) : I.eval n env = none := by
  have hargs : (n.form.operands.map I.denote).mapM (·.value env) = none := by
    rw [hops, List.mapM_map]
    exact mapM_of_throws (ht env)
  obtain ⟨method, hf⟩ | ⟨callee, hf⟩ := operands_cases hn (by simp [hops])
  · rw [eval_of_form hf]
    simp only [evalForm, Form.map, Option.map_none, hargs]
    rfl
  · rw [eval_of_form hf]
    simp only [evalForm, Form.map, hargs]
    rfl

theorem comparison_eq_none {value : Expr} {comparison : Option Member} {cases : List (Case Expr)} {fallback : Option Expr}
    (hn : c.Fragment use n) (hf : n.form = .switch value comparison cases fallback) : comparison = none := by
  have hform := hn.here
  rw [hf] at hform
  cases comparison with
  | none => rfl
  | some => cases use <;> cases hform

theorem Interpreted.misses (ho : o.Interpreted c I) {value : Value} {passed : List (Expr × Expr)}
    (h : o.Misses none value passed) :
    ∀ p ∈ passed, ∃ v, p.1.constantValue? = some v ∧ value.defaultEquals v = false := by
  have hmiss := h rfl
  rwa [ho.facts] at hmiss

theorem eval_switch {value : Expr} {cases : List (Case Expr)} {fallback : Option Expr} {known : Value}
    (hf : n.form = .switch value none cases fallback) (hv : value.constantValue? = some known) (env : Env) :
    I.eval n env = selectOutcome known (fallback.elim (some (I.default n.ty)) (I.eval · env))
      ((caseTests cases).map fun p => ((I.denote p.1).value env, (I.denote p.2).value env)) := by
  rw [eval_of_form hf]
  simp only [evalForm, Form.map, caseTests_map, List.map_map, I.value_of_known hv]
  cases fallback <;> rfl

theorem eval_invoke {callee : Expr} {args : List Expr} {params : List Var} {body : Expr}
    (hf : n.form = .invoke callee args) (hc : callee.form = .lambda params body) (env : Env) :
    I.eval n env = (args.mapM (I.eval · env)).bind fun values =>
      if params.length = values.length then I.eval body (env.set (params.zip values)) else none := by
  rw [eval_of_form hf]
  simp only [evalForm, Form.map, List.mapM_map, I.denote_of_form hc]
  rfl

theorem Interpreted.throws (ho : o.Interpreted c I) {t : Expr} (h : o.facts.alwaysThrows t = true) : t.isThrow = true := by
  rwa [ho.facts] at h

/-- Evaluating `n` evaluates `t`, unless an exception is raised before. -/
theorem Throws.outcome (ho : o.Interpreted c I) {t : Expr} (hn : c.Fragment .evaluated n) (h : o.Throws n t) :
    (∀ value, n.form ≠ .constant value) ∧ c.Fragment .evaluated t ∧ ∀ env, I.eval n env = none := by
  have hform := hn.here
  have heval : ∀ env, (I.denote t).value env = none := eval_of_throws (ho.throws h.throws)
  cases h with
  | operand hops =>
    refine ⟨fun value hf => ?_, fragment_operand hn (by simp [hops]), eval_of_operand hn hops heval⟩
    simp [hf, Form.operands] at hops
  | conditional hf | logical hf =>
    refine ⟨by simp [hf], fragment_child hn hf rfl (by simp [Form.children]), fun env => ?_⟩
    rw [eval_of_form hf]
    simp only [evalForm, Form.map, heval]
    rfl
  | @switch _ comparison _ _ hf =>
    refine ⟨by simp [hf], fragment_child hn hf rfl (by simp [Form.children]), fun env => ?_⟩
    rw [eval_of_form hf]
    cases comparison with
    | some => rfl
    | none =>
      simp only [evalForm, Form.map, heval]
      rfl
  | @caseTest value t body comparison cases fallback known passed rest hf hv htests hmiss =>
    have hmem : (t, body) ∈ caseTests cases := by rw [htests]; simp
    refine ⟨by simp [hf], fragment_child hn hf rfl (mem_of_caseTests hmem).1, fun env => ?_⟩
    obtain rfl := comparison_eq_none hn hf
    rw [ho.facts] at hv
    rw [eval_switch hf hv, htests, selectOutcome_of_misses (ho.misses hmiss), List.map_cons, selectOutcome, heval]
    rfl
  | typeTest hf | convert hf =>
    rw [hf] at hform
    cases hform
  | @body callee t params args hf hc =>
    have hcallee := (fragment_callee hn hf).1
    refine ⟨by simp [hf], fragment_child hcallee hc rfl (List.mem_singleton_self _), fun env => ?_⟩
    rw [eval_invoke hf hc]
    have hbody : ∀ env, I.eval t env = none := heval
    simp only [hbody, ite_self]
    cases args.mapM (I.eval · env) <;> rfl

/-- A known truth value is what the expression evaluates to. -/
theorem Interpreted.truth (ho : o.Interpreted c I) {b : Bool} (h : o.facts.truth? e = some b) :
    ∃ value, value.bool? = some b ∧ ∀ env, (I.denote e).value env = some value := by
  rw [Facts.truth?, ho.facts] at h
  obtain ⟨value, hv, hb⟩ := Option.bind_eq_some_iff.1 h
  exact ⟨value, hb, I.value_of_known hv⟩

/-- `n` evaluates to the branch `b`. -/
theorem Chooses.outcome (ho : o.Interpreted c I) {b : Expr} (hn : c.Fragment .evaluated n) (h : o.Chooses n b) :
    b.ty = n.ty ∧ (∀ value, n.form ≠ .constant value) ∧ c.Fragment .evaluated b ∧ ∀ env, I.eval b env = I.eval n env := by
  have hform := hn.here
  have hmem := h.mem
  cases h with
  | @conditional test a b taken hf ht =>
    rw [hf] at hform hmem
    obtain ⟨value, hbool, hvalue⟩ := ho.truth ht
    refine ⟨?_, by simp [hf], fragment_child hn hf rfl hmem, fun env => ?_⟩
    · cases taken
      · exact hform.2.2
      · exact hform.2.1
    · rw [eval_of_form hf]
      simp only [evalForm, Form.map, hvalue]
      cases taken <;> simp [hbool, eval]
  | @logical op left right value hf ht =>
    rw [hf] at hform hmem
    obtain ⟨known, hbool, hvalue⟩ := ho.truth ht
    refine ⟨?_, by simp [hf], fragment_child hn hf rfl hmem, fun env => ?_⟩
    · split
      · exact hform.2.2.trans hform.1.symm
      · exact hform.2.1.trans hform.1.symm
    · rw [eval_of_form hf]
      simp only [evalForm, Form.map, hvalue]
      split <;> simp_all [eval]
  | @case value test b comparison cases fallback known passed rest hf hv htests hmiss hmatch =>
    obtain rfl := comparison_eq_none hn hf
    rw [hf] at hform hmem
    rw [ho.facts] at hv
    obtain ⟨v, hv', hequal⟩ := hmatch rfl
    rw [ho.facts] at hv'
    refine ⟨?_, by simp [hf], fragment_child hn hf rfl hmem, fun env => ?_⟩
    · have htest : (test, b) ∈ caseTests cases := by rw [htests]; simp
      obtain ⟨k, hk, hbody⟩ := List.mem_flatMap.1 htest
      obtain ⟨_, _, heq⟩ := List.mem_map.1 hbody
      obtain ⟨_, rfl⟩ := Prod.mk.inj heq
      exact hform.1 k hk
    · rw [eval_switch hf hv, htests, selectOutcome_of_misses (ho.misses hmiss), List.map_cons, selectOutcome,
        I.value_of_known hv']
      simp [hequal, eval]
  | @fallback value b comparison cases known hf hv hmiss =>
    obtain rfl := comparison_eq_none hn hf
    rw [hf] at hform hmem
    rw [ho.facts] at hv
    refine ⟨hform.2 b rfl, by simp [hf], fragment_child hn hf rfl hmem, fun env => ?_⟩
    rw [eval_switch hf hv, ← List.append_nil (caseTests cases), selectOutcome_of_misses (ho.misses hmiss)]
    rfl
  | body hf =>
    rw [hf] at hform
    cases hform

theorem throw_of_fragment {t : Expr} (ht : c.Fragment use t) (hthrow : t.isThrow = true) :
    ∃ exception value, t.form = .throw (some exception) ∧ exception.form = .constant value := by
  have hform := ht.here
  unfold Expr.isThrow at hthrow
  split at hthrow
  · next x hf =>
    rw [hf] at hform
    cases use with
    | invoked => cases hform
    | evaluated =>
      cases x with
      | none => cases hform
      | some exception =>
        obtain ⟨value, hx⟩ := hform
        exact ⟨exception, value, hf, hx⟩
  · cases hthrow

theorem fragment_of_throw {exception : Expr} {value : Value} (hr : r.form = .throw (some exception))
    (hx : exception.form = .constant value) : c.Fragment .evaluated r := by
  refine .node ?_ ?_
  · rw [hr]
    exact ⟨value, hx⟩
  · rw [hr]
    simpa [Form.uses, Form.map, Form.children] using Catalog.Fragment.of_constant hx

theorem fragment_of_default (hr : r.form = .defaultOf) : c.Fragment .evaluated r := by
  refine .node ?_ ?_
  · rw [hr]
    trivial
  · rw [hr]
    simp [Form.uses, Form.map, Form.children]

theorem isComputed_eq_false (hn : c.Fragment .evaluated n) : n.form.isComputed = false := by
  have hform := hn.here
  cases hf : n.form with
  | call receiver =>
    rw [hf] at hform
    cases receiver with
    | some => cases hform
    | none => rfl
  | invoke callee args =>
    obtain ⟨params, body, hc⟩ := lambda_of_invoked (fragment_callee hn hf).1
    simp [Form.isComputed, hc]
  | switch => rw [comparison_eq_none hn hf]; rfl
  | access | new | newArray | index | convert => rw [hf] at hform; cases hform
  | _ => rfl

/-- What takes the place of a node according to an outcome stands for it when that is its outcome. -/
theorem stands_of_answer {outcome : Except Exception Value} (hn : c.Fragment .evaluated n)
    (hconstant : ∀ value, n.form ≠ .constant value) (hvoid : n.ty ≠ .void) (h : n.Answers outcome r)
    (heval : ∀ env, outcome.toOption = I.eval n env) : I.Stands c .evaluated n r := by
  obtain ⟨hty, h⟩ := h
  cases outcome with
  | ok value =>
    have hr : r.form = .constant value := (by simpa [hvoid] using h : r.form = .constant value ∧ _).1
    refine .of_eval hn hconstant (.of_constant hr) hty fun env => ?_
    rw [← heval, eval_of_form hr]
    rfl
  | error =>
    obtain ⟨exception, hr, hx, _⟩ := h
    refine .of_eval hn hconstant (fragment_of_throw hr hx) hty fun env => ?_
    rw [← heval, eval_of_form hr]
    rfl

/-- **One step**: what it makes of a node stands for the node. -/
theorem Step.stands (ho : o.Interpreted c I) (h : o.Step n cx r) (hn : c.Fragment use n) : I.Stands c use n r := by
  cases use with
  | invoked =>
    obtain ⟨params, body, hf⟩ := lambda_of_invoked hn
    rw [h.eq_of_lambda hf]
    exact .refl hn
  | evaluated =>
  have hform := hn.here
  cases h with
  | kept => exact .refl hn
  | threw ht hr =>
    obtain ⟨hconstant, hfragment, heval⟩ := ht.outcome ho hn
    obtain ⟨exception, value, hf, hx⟩ := throw_of_fragment hfragment (ho.throws ht.throws)
    have hrf := hr.throw_form hf
    refine .of_eval hn hconstant (fragment_of_throw hrf hx) hr.ty_eq fun env => ?_
    rw [heval, eval_of_form hrf]
    rfl
  | threwAfter hops _ himpure =>
    obtain ⟨a, ha, himpure⟩ := himpure
    have hpure : c.facts.isPure a = true := (fragment_operand hn (a := a) (by simp [hops, ha])).pure
    rw [ho.facts, hpure] at himpure
    cases himpure
  | @called method args values callable outcome r hf hknown hcompile hinvoke hanswers =>
    rw [ho.facts] at hknown
    rw [hf] at hform
    obtain ⟨_, hvoid, hpure⟩ := hform
    obtain ⟨w, rfl⟩ := hinvoke
    refine stands_of_answer hn (by simp [hf]) hvoid hanswers fun env => ?_
    have hargs : args.mapM ((·.value env) ∘ I.denote) = some values := mapM_of_knows hknown
    rw [ho.agrees _ _ hpure hcompile, eval_of_form hf]
    simp only [evalForm, Form.map, Option.map_none, List.mapM_map, hargs]
    rfl
  | folded hcomputed => exact absurd hcomputed (by simp [isComputed_eq_false hn])
  | decided _ hf | simplified hf =>
    rw [hf] at hform
    cases hform
  | branch hb hr =>
    obtain ⟨hty, hconstant, hb, heval⟩ := hb.outcome ho hn
    rw [hr.eq_of_ty hty]
    exact .of_eval hn hconstant hb hty heval
  | defaulted hf hv hmiss hty hr =>
    obtain rfl := comparison_eq_none hn hf
    rw [ho.facts] at hv
    refine .of_eval hn (by simp [hf]) (fragment_of_default hr) hty fun env => ?_
    rw [eval_switch hf hv, ← List.append_nil (caseTests _), selectOutcome_of_misses (ho.misses hmiss), eval_of_form hr, hty]
    rfl
  | flattened _ _ hflat => exact absurd hflat (by simp [ho.flattening])

/-! ### Inlining and visits -/

theorem ty_of_zip {params : List Var} {args : List Expr} (h : args.map (·.ty) = params.map (·.ty)) {p : Var × Expr}
    (hp : p ∈ params.zip args) : p.2.ty = p.1.ty := by
  induction params generalizing args with
  | nil => cases hp
  | cons x params ih =>
    cases args with
    | nil => cases hp
    | cons a args =>
      obtain ⟨hty, htys⟩ := List.cons.inj h
      obtain rfl | hp := List.mem_cons.1 hp
      · exact hty
      · exact ih htys hp

/-- The literals that replace parameters are the constants of the known arguments. -/
theorem constant_of_isLiteral {facts : Facts} {p q : Var × Expr} (h : IsLiteral facts p q) (hty : p.2.ty = p.1.ty) :
    q.1 = p.1 ∧ q.2.ty = q.1.ty ∧ ∃ value, facts.constantValue? p.2 = some value ∧ q.2.form = .constant value := by
  obtain ⟨hfst, value, literal, hv, hlty, hlform, hr⟩ := h
  rw [hr.eq_of_ty (hlty.trans hty)]
  exact ⟨hfst, hlty.trans (hty.trans (congrArg Var.ty hfst).symm), value, hv, hlform⟩

/-- Replacing the parameters by the literals is binding them to the values of the arguments. -/
theorem after_eq_set {params : List Var} {args : List Expr} {values : List Value} {s : Substitution} (env : Env)
    (htys : args.map (·.ty) = params.map (·.ty)) (hknown : c.facts.Knows args values)
    (hlit : List.Forall₂ (IsLiteral c.facts) (params.zip args) s) : env.after s = env.set (params.zip values) := by
  induction params generalizing args values s with
  | nil =>
    cases hlit
    rfl
  | cons x params ih =>
    cases hknown with
    | nil => cases htys
    | @cons a value args values hv hknown =>
      cases hlit with
      | @cons _ q _ s hq hlit =>
        obtain ⟨hty, hrest⟩ := List.cons.inj htys
        obtain ⟨y, literal⟩ := q
        obtain ⟨rfl, _, value', hv', hform⟩ := constant_of_isLiteral hq hty
        obtain rfl : value = value' := Option.some.inj (hv.symm.trans hv')
        have hread : literal.constantValue? = some value := by rw [Expr.constantValue?, hform]
        funext z
        have hz := congrFun (ih hrest hknown hlit) z
        simp only [Env.after, Env.set, List.zip_cons_cons, List.lookup_cons] at hz ⊢
        cases z == y with
        | true => simp [hread]
        | false => exact hz

/-- **Inlining**: what it makes of an invocation stands for the invocation. -/
theorem Inlines.stands (ho : o.Interpreted c I) {reduced : Expr} (h : o.Inlines n reduced)
    (hn : c.Fragment .evaluated n) : I.Stands c .evaluated n reduced := by
  obtain ⟨callee, params, body, args, values, b, hf, hc, hknown, ⟨hlength, _, s, hlit, hsub⟩, hr⟩ := h
  rw [ho.facts] at hknown hlit
  have hcallee := (fragment_callee hn hf).1
  have hbody : c.Fragment .evaluated body := fragment_child hcallee hc rfl (List.mem_singleton_self _)
  have hinvoke : callee.ty = .function (args.map (·.ty)) n.ty := by
    have hform := hn.here
    rwa [hf] at hform
  have hlambda : callee.ty = .function (params.map (·.ty)) body.ty := by
    have hform := hcallee.here
    rw [hc] at hform
    exact hform.2
  obtain ⟨htys, hty⟩ : args.map (·.ty) = params.map (·.ty) ∧ n.ty = body.ty := by
    simpa using hinvoke.symm.trans hlambda
  have hs : Substitution.IsConstant s := by
    intro q hq
    obtain ⟨p, hp, hpq⟩ := exists_left_of_forall₂ hlit hq
    obtain ⟨_, hqty, value, _, hform⟩ := constant_of_isLiteral hpq (ty_of_zip htys hp)
    exact ⟨hqty, value, hform⟩
  have hfits : c.Fits .evaluated body b := hsub.fits hs hbody
  rw [hr.eq_of_ty (hfits.ty.trans hty.symm)]
  refine .of_eval hn (by simp [hf]) hfits.fragment (hfits.ty.trans hty.symm) fun env => ?_
  have hargs : args.mapM (I.eval · env) = some values := mapM_of_knows hknown
  have hvalues : params.length = values.length := hlength.trans hknown.length_eq
  rw [eval_invoke hf hc, hargs, Option.bind_some, if_pos hvalues, ← after_eq_set env htys hknown hlit]
  exact congrArg (·.value env) (denote_of_substituted hsub hs hbody)

/-- **Visits**: what they make of an expression stands for it. -/
theorem Visits.stands (ho : o.Interpreted c I) (h : o.Visits cx e r) (he : c.Fragment use e) : I.Stands c use e r := by
  induction h generalizing use with
  | skipped => exact .refl he
  | settled _ hrel hty _ hstep ih =>
    have hn : I.Stands c use _ _ := .of_rel he (o.facts.rel_of_inContext hrel) hty (by
      rintro use a b ⟨cx, hab⟩ ha
      exact ih _ _ hab ha)
    exact hn.trans (hstep.stands ho hn.fragment)
  | @inlined cx e n reduced r R _ hrel hty hin _ ih ihr =>
    have hn : I.Stands c use e n := .of_rel he (o.facts.rel_of_inContext hrel) hty (by
      rintro use a b ⟨cx, hab⟩ ha
      exact ih _ _ hab ha)
    cases use with
    | invoked =>
      obtain ⟨params, body, hf⟩ := lambda_of_invoked hn.fragment
      obtain ⟨_, _, _, _, _, _, hf', _⟩ := hin
      cases hf.symm.trans hf'
    | evaluated =>
      have hreduced := hin.stands ho hn.fragment
      exact (hn.trans hreduced).trans (ihr hreduced.fragment)

end Optimizer

open Store

/-- **The meaning of pure expressions is kept**: for an expression of the fragment, whatever the catalog and the settings,
as long as conditionals are not merged and the evaluators do what the interpretation says, the result of a run evaluates in
every environment to what the expression evaluates to. -/
theorem meaning_kept {σ κ : Type} (catalog : Catalog) (evaluators : Evaluators σ κ) (settings : Settings)
    (interpretation : Interpretation) (agrees : interpretation.Agrees catalog evaluators)
    (flattening_off : settings.flattening = false) (e r : Expr) (s s' : Progress σ) (identified : e.Identified s.nodes)
    (fragment : catalog.Fragment .evaluated e)
    (run : (⟨catalog.facts, evaluators, .none, settings⟩ : Optimizer σ κ).optimize e s = .ok r s') (env : Env) :
    interpretation.eval r env = interpretation.eval e env := by
  obtain ⟨rfl | h, _⟩ := Optimizer.visits_of_optimize Hooks.none_transparent identified run
  · rfl
  · rw [Interpretation.eval, (h.stands ⟨rfl, agrees, flattening_off⟩ fragment).denote]
    rfl

/-! ### An expression that is reduced to a constant -/

/-- A member that says whether a program is being debugged. -/
def debugging : Member := ⟨"debugging", .object, .method, true, [], .bool, none⟩

/-- The catalog in which `debugging` has no side effects. -/
def debuggingCatalog : Catalog := { Catalog.empty with pureMembers := ⟨[debugging]⟩ }

/-- The evaluators by which nothing is debugged. -/
def released : Evaluators Console Registration :=
  Registry.natives ⟨[(debugging, ⟨0, debugging, .const (.bool false)⟩)]⟩

/-- The interpretation by which nothing is debugged. -/
def releasedMeaning : Interpretation := ⟨fun _ _ => some (.bool false), fun _ => .null⟩

/-- A throw when debugging; otherwise a switch in a function literal that is invoked on a text. -/
def guardedSwitch : Fresh .node Expr := do
  let x : Var := ⟨0, "x", .string⟩
  let switch ← Expr.switch (← Expr.var x) none [⟨[← Expr.string "a"], ← Expr.string "b"⟩] none .string
  let invocation ← Expr.invoke (← Expr.lambda [x] switch) [← Expr.string "a"]
  let test ← Expr.call none debugging []
  Expr.conditional test (← Expr.throw (some (← Expr.null .exception)) .string) invocation .string

theorem guardedSwitch_reaches : making.reaches initial guardedSwitch fun st e => e ∈ st := by
  refine making.ofBind (Expr.make_mem rfl (List.forall_mem_nil _)) fun st₁ _ x hx => ?_
  refine making.ofBind (Expr.make_mem rfl (List.forall_mem_nil _)) fun st₂ hst₂ a ha => ?_
  refine making.ofBind (Expr.make_mem rfl (List.forall_mem_nil _)) fun st₃ hst₃ b hb => ?_
  refine making.ofBind (Expr.make_mem rfl ?_) fun st₄ _ switch hswitch => ?_
  · simpa [Form.children, Case.children] using ⟨mem_of_le (hst₂.trans hst₃) hx, mem_of_le hst₃ ha, hb⟩
  refine making.ofBind (Expr.make_mem rfl (by simpa [Form.children] using hswitch)) fun st₅ _ callee hcallee => ?_
  refine making.ofBind (Expr.make_mem rfl (List.forall_mem_nil _)) fun st₆ hst₆ arg harg => ?_
  refine making.ofBind (Expr.make_mem rfl ?_) fun st₇ _ invocation hinvocation => ?_
  · simpa [Form.children] using ⟨mem_of_le hst₆ hcallee, harg⟩
  refine making.ofBind (Expr.make_mem rfl (List.forall_mem_nil _)) fun st₈ hst₈ test htest => ?_
  refine making.ofBind (Expr.make_mem rfl (List.forall_mem_nil _)) fun st₉ hst₉ exception hexception => ?_
  refine making.ofBind (Expr.make_mem rfl (by simpa [Form.children] using hexception)) fun st₁₀ hst₁₀ throw hthrow => ?_
  refine Expr.make_mem rfl ?_
  simpa [Form.children] using
    ⟨mem_of_le (hst₉.trans hst₁₀) htest, hthrow, mem_of_le (hst₈.trans (hst₉.trans hst₁₀)) hinvocation⟩

theorem guardedSwitch_fragment : debuggingCatalog.Fragment .evaluated (guardedSwitch ⟨0⟩).1 := by
  have hleaf : ∀ {r : Expr} {value : Value}, r.form = .constant value → debuggingCatalog.Fragment .evaluated r :=
    fun h => .of_constant h
  refine .node ⟨rfl, rfl, rfl⟩ ?_
  refine List.forall_mem_cons.2 ⟨.node ⟨rfl, nofun, rfl⟩ nofun, ?_⟩
  refine List.forall_mem_cons.2 ⟨.node ⟨_, rfl⟩ (List.forall_mem_singleton.2 (hleaf rfl)), ?_⟩
  refine List.forall_mem_singleton.2 (.node rfl (List.forall_mem_cons.2 ⟨?_, List.forall_mem_singleton.2 (hleaf rfl)⟩))
  refine .node ⟨by decide, rfl⟩ (List.forall_mem_singleton.2 (.node ⟨?_, nofun⟩ ?_))
  · exact List.forall_mem_singleton.2 rfl
  · refine List.forall_mem_cons.2 ⟨.node rfl nofun, ?_⟩
    exact List.forall_mem_cons.2 ⟨hleaf rfl, List.forall_mem_singleton.2 (hleaf rfl)⟩

theorem releasedMeaning_agrees : releasedMeaning.Agrees debuggingCatalog released := by
  rintro m callable _ ⟨w, hcompile⟩ values w'
  obtain ⟨m', hmem⟩ := Registry.mem_of_compile hcompile
  obtain ⟨_, rfl⟩ := Prod.mk.inj (List.mem_singleton.1 hmem)
  rfl

theorem meaning_kept_guardedSwitch :
    let e := (guardedSwitch ⟨0⟩).1
    let s : Progress Console := ⟨(guardedSwitch ⟨0⟩).2, ⟨⟨0⟩, .empty⟩, .empty⟩
    let o : Optimizer Console Registration :=
      ⟨debuggingCatalog.facts, released, .none, { Settings.standard with flattening := false }⟩
    releasedMeaning.Agrees debuggingCatalog released ∧ e.Identified s.nodes ∧ debuggingCatalog.Fragment .evaluated e ∧
      ∃ r s', o.optimize e s = .ok r s' ∧ s'.tally.total = 4 ∧
        ∀ env, releasedMeaning.eval r env = releasedMeaning.eval e env := by
  intro e s o
  have identified : e.Identified s.nodes := Expr.identified_of_reaches guardedSwitch_reaches _
  have hok : Run.passes (fun _ s' => s'.tally.total == 4) (o.optimize e s) = true := by decide +kernel
  obtain ⟨r, s', hrun, htotal⟩ := Run.exists_of_passes hok
  exact ⟨releasedMeaning_agrees, identified, guardedSwitch_fragment, r, s', hrun, by simpa using htotal,
    meaning_kept _ _ _ _ releasedMeaning_agrees rfl e r s s' identified guardedSwitch_fragment hrun⟩

end TypedTree
