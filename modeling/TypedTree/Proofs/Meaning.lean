import TypedTree.Proofs.Typing

/-!
# Meaning of pure expressions

What an expression without side effects evaluates to. `Interpretation.eval` evaluates from left to right and gives the
value, or nothing when an exception is raised. Function literals are evaluated where they are invoked, so that an
expression has two readings (`Denotation`): its value, and, for a function literal, its result for given arguments.

`Catalog.Fragment` are the expressions for which this is the whole meaning: constants, variables, defaults, calls of static
members without side effects, choices, connectives, switches, invocations of function literals and throws of constants, in
which all types are exactly what they have to be.
-/

namespace TypedTree

/-! ### Evaluation -/

/-- The outcome of an evaluation: a value, or nothing when an exception is raised. -/
abbrev Outcome := Option Value

/-- The values of the variables. -/
abbrev Env := Var → Value

/-- The environment in which some variables have new values. -/
def Env.set (env : Env) (bindings : List (Var × Value)) : Env := fun x => (bindings.lookup x).getD (env x)

/-- The two readings of an expression. -/
@[ext] structure Denotation where
  /-- Its outcome when it is evaluated. -/
  value : Env → Outcome
  /-- Its outcome when it is a function literal that is invoked on some values. -/
  result : Env → List Value → Outcome

/-- The readings in an environment that is changed first. -/
def Denotation.under (d : Denotation) (change : Env → Env) : Denotation :=
  ⟨fun env => d.value (change env), fun env values => d.result (change env) values⟩

/-- What the members of a library do. -/
structure Interpretation where
  /-- The outcome of a call of a static member. -/
  call : Member → List Value → Outcome
  /-- The default of a type whose default is not built in. -/
  instanceOf : Ty → Value

/-- The first body whose test gives the value; the tests are evaluated in order until then. -/
def selectOutcome (value : Value) (otherwise : Outcome) : List (Outcome × Outcome) → Outcome
  | [] => otherwise
  | (test, body) :: rest => do
    if value.defaultEquals (← test) then body else selectOutcome value otherwise rest

namespace Interpretation

variable (I : Interpretation)

/-- The default value of a type. -/
def default (ty : Ty) : Value := ty.defaultValue?.getD (I.instanceOf ty)

/-- The outcome of an expression of type `ty`, given the readings of its sub-expressions. Forms that are not dealt with have
none. -/
def evalForm (ty : Ty) (form : Form Denotation) (env : Env) : Outcome :=
  match form with
  | .constant value => some value
  | .var x => some (env x)
  | .defaultOf => some (I.default ty)
  | .call none method args => do I.call method (← args.mapM (·.value env))
  | .invoke callee args => do callee.result env (← args.mapM (·.value env))
  | .conditional test whenTrue whenFalse => do
    if ← (← test.value env).bool? then whenTrue.value env else whenFalse.value env
  | .logical op left right => do
    let value ← left.value env
    if (← value.bool?) == (op == .and) then right.value env else some value
  | .switch value none cases fallback => do
    selectOutcome (← value.value env) (fallback.elim (some (I.default ty)) (·.value env))
      ((caseTests cases).map fun (test, body) => (test.value env, body.value env))
  | .throw _ => none
  | _ => none

/-- The outcome of a function literal that is invoked on some values. -/
def resultForm (form : Form Denotation) (env : Env) (values : List Value) : Outcome :=
  match form with
  | .lambda params body => if params.length = values.length then body.value (env.set (params.zip values)) else none
  | _ => none

/-- The readings of an expression of type `ty`, given those of its sub-expressions. -/
def denoteForm (ty : Ty) (form : Form Denotation) : Denotation := ⟨I.evalForm ty form, resultForm form⟩

/-- The readings of an expression. -/
def denote (e : Expr) : Denotation := Expr.recurse (fun e form () => I.denoteForm e.ty (form.map (·.2 ()))) e ()

/-- The outcome of an expression. -/
def eval (e : Expr) (env : Env) : Outcome := (I.denote e).value env

theorem denote_eq (e : Expr) : I.denote e = I.denoteForm e.ty (e.form.map I.denote) := by
  rw [denote, Expr.recurse_eq]
  simp only [Form.map_map]
  rfl

theorem denote_of_form {e : Expr} {form : Form Expr} (h : e.form = form) :
    I.denote e = I.denoteForm e.ty (form.map I.denote) := by
  rw [denote_eq, h]

/-- A known value is what the expression evaluates to. -/
theorem value_of_known {e : Expr} {value : Value} (h : e.constantValue? = some value) (env : Env) :
    (I.denote e).value env = some value := by
  unfold Expr.constantValue? at h
  split at h
  · next hf => rw [I.denote_of_form hf]; exact h
  · next hf =>
    rw [I.denote_of_form hf]
    simp [denoteForm, evalForm, Form.map, default, h]
  · cases h

/-- The evaluators agree with the interpretation: whenever a member without side effects was compiled, calls have the
outcome that the interpretation says. -/
def Agrees {σ κ : Type} (c : Catalog) (ev : Evaluators σ κ) : Prop :=
  ∀ m callable, c.isPureMember m = true → (∃ w, (ev.compile m w).1 = .ok callable) →
    ∀ values w, (ev.invoke callable values w).1.toOption = I.call m values

end Interpretation

/-! ### The fragment -/

/-- Every sub-expression of a form, paired with how it is used. -/
def Form.uses {α : Type} : Form α → Form (Use × α)
  | .invoke callee args => .invoke (.invoked, callee) (args.map (.evaluated, ·))
  | form => form.map (.evaluated, ·)

section

variable {α β : Type}

theorem Form.map_snd_uses (form : Form α) : form.uses.map (·.2) = form := by
  cases form <;> simp [Form.uses, Form.map, Case.map, Clause.map, Function.comp_def]

theorem Form.mem_uses {form : Form α} {a : α} (h : a ∈ form.children) : ∃ use, (use, a) ∈ form.uses.children := by
  rw [← Form.map_snd_uses form, Form.children_map, List.mem_map] at h
  obtain ⟨p, hp, rfl⟩ := h
  exact ⟨p.1, hp⟩

/-- The sub-expressions of corresponding forms are used in the same ways. -/
theorem Form.Rel.uses {R : α → β → Prop} {f : Form α} {g : Form β} (h : Form.Rel R f g) :
    Form.Rel (fun p q => p.1 = q.1 ∧ R p.2 q.2) f.uses g.uses := by
  have hplain : Form.Rel (fun p q => p.1 = q.1 ∧ R p.2 q.2) (f.map (Use.evaluated, ·)) (g.map (Use.evaluated, ·)) :=
    (h.mono fun _ _ hR => ⟨rfl, hR⟩).map
  cases h with
  | invoke h hs => exact .invoke ⟨rfl, h⟩ (forall₂_map (hs.imp fun _ _ h => ⟨rfl, h⟩))
  | _ => exact hplain

end

namespace Catalog

variable (c : Catalog)

/-- What the fragment asks of a node of type `ty` that is used in some way. -/
def FragmentForm (ty : Ty) : Use → Form Expr → Prop
  | .evaluated, .constant _ | .evaluated, .defaultOf => True
  | .evaluated, .var x => ty = x.ty
  | .evaluated, .call none method _ => ty = method.ty ∧ ty ≠ .void ∧ c.isPureMember method = true
  | .evaluated, .conditional test whenTrue whenFalse => test.ty = .bool ∧ whenTrue.ty = ty ∧ whenFalse.ty = ty
  | .evaluated, .logical _ left right => ty = .bool ∧ left.ty = .bool ∧ right.ty = .bool
  | .evaluated, .switch _ none cases fallback => (∀ k ∈ cases, k.body.ty = ty) ∧ ∀ b ∈ fallback, b.ty = ty
  | .evaluated, .invoke callee args => callee.ty = .function (args.map (·.ty)) ty
  | .evaluated, .throw (some exception) => ∃ value, exception.form = .constant value
  | .invoked, .lambda params body => params.Nodup ∧ ty = .function (params.map (·.ty)) body.ty
  | _, _ => False

/-- The expression belongs to the fragment, evaluated or as a function literal that is invoked. -/
inductive Fragment : Use → Expr → Prop where
  | node {use : Use} {e : Expr} : c.FragmentForm e.ty use e.form → (∀ p ∈ e.form.uses.children, Fragment p.1 p.2) →
      Fragment use e

variable {c} {use : Use} {e n : Expr}

theorem Fragment.here (h : c.Fragment use e) : c.FragmentForm e.ty use e.form := by
  cases h
  assumption

theorem Fragment.child (h : c.Fragment use e) {p : Use × Expr} (hp : p ∈ e.form.uses.children) :
    c.Fragment p.1 p.2 := by
  cases h with
  | node _ h => exact h p hp

/-- What the fragment asks of a node, it asks of the types of the sub-expressions and of thrown constants. -/
theorem FragmentForm.of_rel {f g : Form Expr} {ty : Ty} (h : c.FragmentForm ty use f)
    (hrel : Form.Rel (fun a b => b.ty = a.ty ∧ ∀ value, a.form = .constant value → b.form = .constant value) f g) :
    c.FragmentForm ty use g := by
  cases use with
  | invoked =>
    cases hrel with
    | lambda hb => exact ⟨h.1, by rw [hb.1]; exact h.2⟩
    | _ => cases h
  | evaluated =>
    cases hrel with
    | constant | defaultOf | var => exact h
    | call hreceiver =>
      cases hreceiver with
      | none => exact h
      | some => cases h
    | conditional ht ha hb => exact ⟨ht.1.trans h.1, ha.1.trans h.2.1, hb.1.trans h.2.2⟩
    | logical hl hr => exact ⟨h.1, hl.1.trans h.2.1, hr.1.trans h.2.2⟩
    | @switch _ _ comparison _ _ _ _ _ hcases hfallback =>
      cases comparison with
      | some => cases h
      | none =>
        refine ⟨fun k hk => ?_, fun b hb => ?_⟩
        · obtain ⟨j, hj, hjk⟩ := exists_left_of_forall₂ hcases hk
          exact hjk.body.1.trans (h.1 j hj)
        · obtain ⟨a, ha, hab⟩ := exists_left_of_forall₂ (forall₂_toList hfallback) (Option.mem_toList.2 hb)
          exact hab.1.trans (h.2 a (Option.mem_toList.1 ha))
    | invoke hcallee hargs =>
      have htys := forall₂_map (R := Eq) (hargs.imp fun _ _ h => h.1.symm)
      rw [List.forall₂_eq_eq_eq] at htys
      exact (hcallee.1.trans h).trans (by rw [htys])
    | throw hexception =>
      cases hexception with
      | none => cases h
      | some hx =>
        obtain ⟨value, hvalue⟩ := h
        exact ⟨value, hx.2 value hvalue⟩
    | _ => cases h

/-- The fragment has no side effects. -/
theorem Fragment.pure (h : c.Fragment use e) : c.purity e use = true := by
  induction h with
  | @node use e hform hchildren ih =>
    rw [purity_eq]
    generalize e.form = form at hform ih
    have hplain : form.uses = form.map (.evaluated, ·) → ∀ a ∈ form.children, c.purity a .evaluated = true := by
      intro huses a ha
      refine ih (.evaluated, a) ?_
      rw [huses, Form.children_map]
      exact List.mem_map_of_mem ha
    cases use with
    | invoked =>
      cases form with
      | lambda params body => exact hplain rfl body (List.mem_singleton_self _)
      | _ => cases hform
    | evaluated =>
      cases form with
      | constant | defaultOf | var => rfl
      | call receiver method args =>
        cases receiver with
        | some => cases hform
        | none =>
          have hpure : c.isPureMember method = true := hform.2.2
          have hargs : ∀ a ∈ args, c.purity a .evaluated = true := hplain rfl
          simpa [formPurity, isPureForm, Form.map, hpure] using hargs
      | conditional | logical =>
        simpa [formPurity, isPureForm, Form.map, Form.children, and_assoc] using hplain rfl
      | switch value comparison cases fallback =>
        cases comparison with
        | some => cases hform
        | none =>
          have hvalue : c.purity value .evaluated = true := hplain rfl value List.mem_cons_self
          have hcases : ∀ k ∈ cases, ∀ a ∈ k.children, c.purity a .evaluated = true := fun k hk a ha =>
            hplain rfl a (List.mem_cons_of_mem _ (List.mem_append_left _ (List.mem_flatMap.2 ⟨k, hk, ha⟩)))
          have hfallback : ∀ a ∈ fallback, c.purity a .evaluated = true := fun a ha =>
            hplain rfl a (List.mem_cons_of_mem _ (List.mem_append_right _ (Option.mem_toList.2 ha)))
          simpa [formPurity, isPureForm, Form.map, hvalue, Option.all_eq_true] using ⟨hcases, hfallback⟩
      | invoke callee args =>
        simpa [formPurity, isPureForm, Form.map, Form.uses, Form.children] using ih
      | throw exception =>
        cases exception with
        | none => cases hform
        | some x => simpa [formPurity, isPureForm, Form.map] using hplain rfl x (List.mem_singleton_self _)
      | _ => cases hform

/-- `b` can be put in the place of `a` without leaving the fragment. -/
structure Fits (c : Catalog) (use : Use) (a b : Expr) : Prop where
  fragment : c.Fragment use b
  ty : b.ty = a.ty
  constant : ∀ value, a.form = .constant value → b.form = .constant value

theorem Fits.of_rel {R : Expr → Expr → Prop} (he : c.Fragment use e) (hrel : Form.Rel R e.form n.form)
    (hty : n.ty = e.ty) (hR : ∀ use a b, R a b → c.Fragment use a → c.Fits use a b) : c.Fits use e n := by
  refine ⟨.node ?_ fun q hq => ?_, hty, fun value hvalue => ?_⟩
  · rw [hty]
    refine he.here.of_rel (hrel.imp fun a ha b hab => ?_)
    obtain ⟨use, hmem⟩ := Form.mem_uses ha
    have hfits := hR use a b hab (he.child hmem)
    exact ⟨hfits.ty, hfits.constant⟩
  · obtain ⟨p, hp, huse, hpq⟩ := hrel.uses.exists_left hq
    exact huse ▸ (hR p.1 p.2 q.2 hpq (he.child hp)).fragment
  · rw [hvalue] at hrel
    generalize n.form = f at hrel
    cases hrel
    rfl

end Catalog

/-! ### Readings of corresponding expressions -/

namespace Interpretation

variable {I : Interpretation} {c : Catalog} {use : Use} {e n r : Expr}

/-- Forms with the same sub-expressions have the same readings; handlers, whose identities may differ, have none. -/
theorem denoteForm_congr {ty : Ty} {f g : Form Denotation} (h : Form.Rel (· = ·) f g) :
    I.denoteForm ty f = I.denoteForm ty g := by
  cases h with
  | call h hs =>
    rw [List.forall₂_eq_eq_eq] at hs
    rw [optionRel_eq h, hs]
  | invoke h hs =>
    rw [List.forall₂_eq_eq_eq] at hs
    rw [h, hs]
  | lambda h => rw [h]
  | conditional h h' h'' => rw [h, h', h'']
  | logical h h' => rw [h, h']
  | switch h hs h' =>
    have hcases := hs.imp fun _ _ h => h.eq
    rw [List.forall₂_eq_eq_eq] at hcases
    rw [h, hcases, optionRel_eq h']
  | _ => rfl

theorem denote_of_rel (hrel : Form.Rel (fun a b => I.denote a = I.denote b) e.form n.form) (hty : n.ty = e.ty) :
    I.denote n = I.denote e := by
  rw [denote_eq, I.denote_eq e, hty]
  exact (denoteForm_congr hrel.map).symm

theorem caseTests_map {α β : Type} (f : α → β) (cases : List (Case α)) :
    caseTests (cases.map (·.map f)) = (caseTests cases).map fun p => (f p.1, f p.2) := by
  simp [caseTests, List.flatMap_map, List.map_flatMap, Case.map, Function.comp_def]

/-- Forms other than references pass the environment on. -/
theorem evalForm_under {ty : Ty} {form : Form Denotation} {change : Env → Env} (hvar : ∀ x, form ≠ .var x) (env : Env) :
    I.evalForm ty (form.map (·.under change)) env = I.evalForm ty form (change env) := by
  cases form with
  | var x => exact absurd rfl (hvar x)
  | call receiver method args =>
    cases receiver with
    | some => rfl
    | none =>
      simp only [evalForm, Form.map, Option.map_none, List.mapM_map]
      rfl
  | invoke callee args =>
    simp only [evalForm, Form.map, List.mapM_map]
    rfl
  | switch value comparison cases fallback =>
    cases comparison with
    | some => rfl
    | none =>
      simp only [evalForm, Form.map, caseTests_map, List.map_map]
      cases fallback <;> rfl
  | _ => rfl

/-- Forms other than references and function literals pass the environment on. -/
theorem denoteForm_under {ty : Ty} {form : Form Denotation} {change : Env → Env} (hvar : ∀ x, form ≠ .var x)
    (hlambda : ∀ params body, form ≠ .lambda params body) :
    I.denoteForm ty (form.map (·.under change)) = (I.denoteForm ty form).under change := by
  refine Denotation.ext (funext fun env => evalForm_under hvar env) ?_
  cases form with
  | lambda params body => exact absurd rfl (hlambda params body)
  | _ => rfl

end Interpretation

/-! ### Substitution -/

/-- The substitution puts constants of the right types in the place of variables. -/
def Substitution.IsConstant (s : Substitution) : Prop := ∀ p ∈ s, p.2.ty = p.1.ty ∧ ∃ value, p.2.form = .constant value

theorem Substitution.IsConstant.without {s : Substitution} (h : s.IsConstant) (bound : List Var) :
    (s.without bound).IsConstant :=
  fun p hp => h p (List.mem_of_mem_filter hp)

theorem Substitution.without_nil (s : Substitution) : s.without [] = s := by
  simp [without]

theorem Substitution.lookup_without (s : Substitution) (bound : List Var) (x : Var) :
    (s.without bound).lookup x = if x ∈ bound then none else s.lookup x := by
  induction s with
  | nil => simp [without]
  | cons p s ih =>
    obtain ⟨y, a⟩ := p
    by_cases hy : y ∈ bound
    · have hcons : without ((y, a) :: s) bound = without s bound := by simp [without, hy]
      rw [hcons, ih]
      split
      · rfl
      · next hx =>
        have hxy : (x == y) = false := beq_false_of_ne fun h => hx (h ▸ hy)
        rw [List.lookup_cons, hxy]
    · have hcons : without ((y, a) :: s) bound = (y, a) :: without s bound := by simp [without, hy]
      rw [hcons, List.lookup_cons, List.lookup_cons, ih]
      cases hxy : x == y with
      | true =>
        have hx : x ∉ bound := (eq_of_beq hxy).symm ▸ hy
        simp only [if_neg hx]
      | false => rfl

/-- The environment in which variables have the values of the constants that replace them. -/
def Env.after (env : Env) (s : Substitution) : Env := fun x => ((s.lookup x).bind Expr.constantValue?).getD (env x)

/-- Parameters hide what is replaced outside. -/
theorem Env.after_set (env : Env) (s : Substitution) {params : List Var} {values : List Value}
    (h : params.length = values.length) :
    Env.after (env.set (params.zip values)) (s.without params) = (env.after s).set (params.zip values) := by
  have hfst : (params.zip values).map (·.1) = params := List.map_fst_zip h.le
  funext x
  unfold Env.after Env.set
  rw [s.lookup_without]
  cases hl : (params.zip values).lookup x with
  | none =>
    have hx : x ∉ params := by
      rw [← hfst]
      intro hx
      obtain ⟨p, hp, rfl⟩ := List.mem_map.1 hx
      simpa using List.lookup_eq_none_iff.1 hl p hp
    simp [hx]
  | some value =>
    have hx : x ∈ params := by
      obtain ⟨_, _, heq, _⟩ := List.lookup_eq_some_iff.1 hl
      rw [← hfst, heq]
      simp
    simp [hx]

section

variable {I : Interpretation} {c : Catalog} {use : Use} {e r : Expr} {s : Substitution}

theorem Catalog.Fragment.of_constant {value : Value} (h : r.form = .constant value) : c.Fragment .evaluated r := by
  refine .node ?_ ?_
  · rw [h]
    trivial
  · rw [h]
    simp [Form.uses, Form.map, Form.children]

/-- Only function literals bind variables. -/
theorem Catalog.Fragment.scoped_eq (he : c.Fragment use e) (hlambda : ∀ params body, e.form ≠ .lambda params body) :
    e.form.scoped = e.form.map ([], ·) := by
  have hform := he.here
  generalize e.form = form at hform hlambda
  cases form with
  | lambda params body => exact absurd rfl (hlambda params body)
  | block | tryCatch => cases use <;> cases hform
  | _ => rfl

/-- What replaces a variable is used as the variable was. -/
theorem Substituted.fits (h : Substituted s e r) (hs : s.IsConstant) (he : c.Fragment use e) : c.Fits use e r := by
  induction h generalizing use with
  | done => exact ⟨he, rfl, fun _ => id⟩
  | @var s e x hf =>
    have hform := he.here
    rw [hf] at hform
    cases hl : s.lookup x with
    | none => exact ⟨he, rfl, fun _ => id⟩
    | some a =>
      obtain ⟨_, _, heq, _⟩ := List.lookup_eq_some_iff.1 hl
      obtain ⟨hty, value, hvalue⟩ := hs (x, a) (by simp [heq])
      cases use with
      | invoked => cases hform
      | evaluated => exact ⟨.of_constant hvalue, hty.trans hform.symm, by simp [hf]⟩
  | node _ hty hrel _ ih =>
    refine .of_rel he (Form.rel_of_scoped hrel) hty ?_
    rintro use a b ⟨bound, hab⟩ ha
    exact ih (bound, a) b hab (hs.without bound) ha

namespace Interpretation

theorem denote_under_var {x : Var} (hf : e.form = .var x) (hs : s.IsConstant) :
    I.denote ((s.lookup x).getD e) = (I.denote e).under fun env => env.after s := by
  have hread : (I.denote e).under (fun env => env.after s) = ⟨fun env => some (env.after s x), fun _ _ => none⟩ := by
    rw [I.denote_of_form hf]
    rfl
  rw [hread]
  cases hl : s.lookup x with
  | none =>
    rw [Option.getD_none, I.denote_of_form hf]
    simp only [Env.after, hl]
    rfl
  | some a =>
    obtain ⟨_, _, heq, _⟩ := List.lookup_eq_some_iff.1 hl
    obtain ⟨_, value, hvalue⟩ := hs (x, a) (by simp [heq])
    have hknown : a.constantValue? = some value := by rw [Expr.constantValue?, hvalue]
    rw [Option.getD_some, I.denote_of_form hvalue]
    simp only [Env.after, hl, Option.bind_some, hknown]
    rfl

theorem denote_under_lambda {params : List Var} {body body' : Expr} (hf : e.form = .lambda params body)
    (hr : r.form = .lambda params body')
    (hbody : I.denote body' = (I.denote body).under fun env => env.after (s.without params)) :
    I.denote r = (I.denote e).under fun env => env.after s := by
  rw [I.denote_of_form hf, I.denote_of_form hr]
  refine Denotation.ext rfl (funext fun env => funext fun values => ?_)
  change resultForm (.lambda params (I.denote body')) env values =
    resultForm (.lambda params (I.denote body)) (env.after s) values
  simp only [resultForm, hbody]
  split
  · next hlength => exact congrArg _ (env.after_set s hlength)
  · rfl

theorem denote_under {change : Env → Env} (hvar : ∀ x, e.form ≠ .var x)
    (hlambda : ∀ params body, e.form ≠ .lambda params body) (hty : r.ty = e.ty)
    (hrel : Form.Rel (fun a b => (I.denote a).under change = I.denote b) e.form r.form) :
    I.denote r = (I.denote e).under change := by
  have hforms : Form.Rel (· = ·) ((e.form.map I.denote).map (·.under change)) (r.form.map I.denote) := by
    rw [Form.map_map]
    exact Form.Rel.map hrel
  rw [I.denote_eq r, I.denote_eq e, hty, ← denoteForm_congr hforms]
  refine denoteForm_under ?_ ?_
  · intro x
    cases h : e.form <;> simp_all [Form.map]
  · intro params body
    cases h : e.form <;> simp_all [Form.map]

/-- **Substitution**: putting constants in the place of variables is giving the variables their values. -/
theorem denote_of_substituted (h : Substituted s e r) (hs : s.IsConstant) (he : c.Fragment use e) :
    I.denote r = (I.denote e).under fun env => env.after s := by
  induction h generalizing use with
  | done => rfl
  | var hf => exact denote_under_var hf hs
  | @node s e r R hvar hty hrel hR ih =>
    by_cases hlambda : ∃ params body, e.form = .lambda params body
    · obtain ⟨params, body, hf⟩ := hlambda
      rw [hf] at hrel
      obtain ⟨body', hr, hbody⟩ : ∃ body', r.form = .lambda params body' ∧ R (params, body) body' := by
        generalize r.form = f at hrel
        cases hrel with
        | lambda hbody => exact ⟨_, rfl, hbody⟩
      have hin : c.Fragment .evaluated body :=
        he.child (p := (.evaluated, body)) (by rw [hf]; exact List.mem_singleton_self _)
      exact denote_under_lambda hf hr (ih (params, body) body' hbody (hs.without params) hin)
    · have hlambda : ∀ params body, e.form ≠ .lambda params body := fun params body h => hlambda ⟨params, body, h⟩
      refine denote_under hvar hlambda hty ?_
      have hplain : Form.Rel (fun p b => p.1 = [] ∧ R p b) e.form.scoped r.form := by
        refine hrel.imp fun p hp b hpb => ⟨?_, hpb⟩
        rw [he.scoped_eq hlambda, Form.children_map, List.mem_map] at hp
        obtain ⟨a, _, rfl⟩ := hp
        rfl
      refine (Form.rel_of_scoped hplain).imp fun a ha b hab => ?_
      obtain ⟨bound, rfl, hab⟩ := hab
      obtain ⟨use, hmem⟩ := Form.mem_uses ha
      have hread := ih ([], a) b hab (hs.without []) (he.child hmem)
      rw [hread, s.without_nil]

end Interpretation

end

end TypedTree
