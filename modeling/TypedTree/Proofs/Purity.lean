import TypedTree.Proofs.Typing

/-!
# Visits keep purity

An expression without side effects is visited into one without side effects. A node in the place of another takes its
parts from it, and the parts of a pure node are pure, except for the body of a function literal: that counts only when the
literal is invoked. So purity is kept in both uses of an expression at once (`Catalog.KeepsPurity`), for whatever facts the
optimizer goes by.
-/

namespace TypedTree

/-! ### Purity of forms -/

namespace Purity

variable {use : Use}

/-- What is pure in some use by the first is pure in it by the second. -/
def Implies (p q : Purity) : Prop := ∀ use, p use = true → q use = true

theorem all_of_forall₂ {ps qs : List Purity} (h : List.Forall₂ Implies ps qs) (hps : ps.all (· use) = true) :
    qs.all (· use) = true := by
  rw [List.all_eq_true] at hps ⊢
  intro q hq
  obtain ⟨p, hp, hpq⟩ := exists_left_of_forall₂ h hq
  exact hpq use (hps p hp)

theorem all_of_optionRel {p q : Option Purity} (h : Option.Rel Implies p q) (hp : p.all (· use) = true) :
    q.all (· use) = true := by
  cases h with
  | none => rfl
  | some h => exact h use hp

theorem all_of_caseRel {cs ds : List (Case Purity)} (h : List.Forall₂ (Case.Rel Implies) cs ds)
    (hcs : cs.all (·.children.all (· use)) = true) : ds.all (·.children.all (· use)) = true := by
  rw [List.all_eq_true] at hcs ⊢
  intro d hd
  obtain ⟨c, hc, hcd⟩ := exists_left_of_forall₂ h hd
  exact all_of_forall₂ hcd.children (hcs c hc)

end Purity

namespace Catalog

open Purity

variable {c : Catalog} {e n r d : Expr}

/-- Forms of one shape are pure together when their sub-expressions are. -/
theorem formPurity_of_rel {f g : Form Purity} (h : Form.Rel Implies f g) (ty : Ty) :
    (c.formPurity ty f).Implies (c.formPurity ty g) := by
  intro use hf
  cases use with
  | invoked =>
    cases h with
    | lambda h => exact h .evaluated hf
    | _ => cases hf
  | evaluated =>
    simp only [formPurity] at hf ⊢
    cases h with
    | constant | var | defaultOf | lambda => rfl
    | convert h | typeTest h => exact h .evaluated hf
    | call h hs =>
      simp only [isPureForm, Bool.and_eq_true] at hf ⊢
      exact ⟨⟨hf.1.1, all_of_optionRel h hf.1.2⟩, all_of_forall₂ hs hf.2⟩
    | access h =>
      simp only [isPureForm, Bool.and_eq_true] at hf ⊢
      exact ⟨hf.1, all_of_optionRel h hf.2⟩
    | @new constructor _ _ hs =>
      cases constructor <;>
        · simp only [isPureForm, Bool.and_eq_true] at hf ⊢
          exact ⟨hf.1, all_of_forall₂ hs hf.2⟩
    | newArray hs | block hs => exact all_of_forall₂ hs hf
    | index h hs =>
      simp only [isPureForm, Bool.and_eq_true] at hf ⊢
      exact ⟨⟨hf.1.1, h .evaluated hf.1.2⟩, all_of_forall₂ hs hf.2⟩
    | invoke h hs =>
      simp only [isPureForm, Bool.and_eq_true] at hf ⊢
      exact ⟨h .invoked hf.1, all_of_forall₂ hs hf.2⟩
    | conditional h h' h'' =>
      simp only [isPureForm, Bool.and_eq_true] at hf ⊢
      exact ⟨⟨h .evaluated hf.1.1, h' .evaluated hf.1.2⟩, h'' .evaluated hf.2⟩
    | logical h h' =>
      simp only [isPureForm, Bool.and_eq_true] at hf ⊢
      exact ⟨h .evaluated hf.1, h' .evaluated hf.2⟩
    | switch h hs h' =>
      simp only [isPureForm, Bool.and_eq_true] at hf ⊢
      exact ⟨⟨⟨hf.1.1.1, h .evaluated hf.1.1.2⟩, all_of_caseRel hs hf.1.2⟩, all_of_optionRel h' hf.2⟩
    | throw h => exact all_of_optionRel h hf
    | tryCatch | jump => cases hf

/-! ### Purity of trees -/

/-- `r` is without side effects in each use in which `e` is. -/
def KeepsPurity (c : Catalog) (e r : Expr) : Prop := (c.purity e).Implies (c.purity r)

theorem purity_of_form {form : Form Expr} (h : e.form = form) : c.purity e = c.formPurity e.ty (form.map c.purity) := by
  rw [purity_eq, h]

theorem keepsPurity_of_rel (hty : n.ty = e.ty) (hrel : Form.Rel c.KeepsPurity e.form n.form) : c.KeepsPurity e n := by
  rw [KeepsPurity, purity_eq, purity_eq, hty]
  exact formPurity_of_rel (Form.Rel.map (R := Implies) (h := c.purity) (k := c.purity) hrel) e.ty

/-- Only function literals are pure when they are invoked, and then their bodies are. -/
theorem lambda_of_pure (he : c.purity e .invoked = true) :
    ∃ params body, e.form = .lambda params body ∧ c.isPure body = true := by
  rw [purity_eq] at he
  cases hf : e.form with
  | lambda params body =>
    rw [hf] at he
    exact ⟨params, body, rfl, he⟩
  | _ => rw [hf] at he; cases he

theorem isPure_of_lambda {params : List Var} {body : Expr} (h : e.form = .lambda params body) : c.isPure e = true := by
  rw [isPure, purity_of_form h]
  rfl

theorem isPureForm_child {form : Form Purity} {ty : Ty} {p : Purity} (hform : c.isPureForm ty form = true)
    (hlambda : ∀ params body, form ≠ .lambda params body) (hinvoke : ∀ callee args, form ≠ .invoke callee args)
    (hp : p ∈ form.children) : p .evaluated = true := by
  cases form with
  | lambda params body => exact absurd rfl (hlambda params body)
  | invoke callee args => exact absurd rfl (hinvoke callee args)
  | constant | var | defaultOf => cases hp
  | tryCatch | jump => cases hform
  | convert | typeTest =>
    obtain rfl := List.mem_singleton.1 hp
    exact hform
  | newArray | block => exact List.all_eq_true.1 hform p hp
  | new constructor =>
    cases constructor <;> exact List.all_eq_true.1 (Bool.and_eq_true_iff.1 hform).2 p hp
  | call | access | index | conditional | logical | switch | throw =>
    simp only [isPureForm, Form.children, Bool.and_eq_true, List.mem_cons, List.mem_append, List.mem_flatMap,
      Option.mem_toList, List.not_mem_nil, or_false] at hform hp
    grind

/-- The sub-expressions of a pure node are pure, if it is not a function literal. -/
theorem isPure_child (hn : c.isPure n = true) (hlambda : ∀ params body, n.form ≠ .lambda params body)
    (hd : d ∈ n.form.children) : c.isPure d = true := by
  rw [isPure, purity_eq] at hn
  unfold isPure
  cases hf : n.form with
  | lambda params body => exact absurd hf (hlambda params body)
  | invoke callee args =>
    rw [hf] at hn hd
    simp only [formPurity, Form.map, isPureForm, Bool.and_eq_true, List.all_map, List.all_eq_true] at hn
    obtain rfl | hd := List.mem_cons.1 hd
    · obtain ⟨params, body, hc, _⟩ := lambda_of_pure hn.1
      exact isPure_of_lambda hc
    · exact hn.2 d hd
  | _ =>
    refine isPureForm_child hn (by simp [hf, Form.map]) (by simp [hf, Form.map]) ?_
    rw [Form.children_map]
    exact List.mem_map_of_mem hd

/-- Forms without a side effect of their own. -/
def hasNoEffect : Form Expr → Bool
  | .constant _ | .defaultOf | .convert _ | .conditional .. | .logical .. | .throw _ | .block .. => true
  | _ => false

/-- A node without a side effect of its own is pure when its sub-expressions are. -/
theorem isPure_of_children (hform : hasNoEffect e.form = true) (h : ∀ d ∈ e.form.children, c.isPure d = true) :
    c.isPure e = true := by
  rw [isPure, purity_eq]
  cases hf : e.form with
  | constant | defaultOf => rfl
  | throw exception =>
    rw [hf] at h
    cases exception with
    | none => rfl
    | some exception => exact h exception (List.mem_singleton_self _)
  | convert | conditional | logical | block =>
    rw [hf] at h
    simp only [Form.children, List.mem_cons, List.not_mem_nil, or_false, isPure] at h
    simp only [formPurity, isPureForm, Form.map, List.all_map]
    grind
  | _ => rw [hf] at hform; cases hform

end Catalog

open Catalog

section

variable {c : Catalog} {e r : Expr}

theorem Expr.IsLeaf.isPure (h : r.IsLeaf) : c.isPure r = true := by
  have hconstant : ∀ {d : Expr} {value : Value}, d.form = .constant value → c.isPure d = true :=
    fun hd => isPure_of_children (by rw [hd]; rfl) (by simp [hd, Form.children])
  cases h with
  | constant hf => exact hconstant hf
  | defaultOf hf => exact isPure_of_children (by rw [hf]; rfl) (by simp [hf, Form.children])
  | throw hf hd =>
    refine isPure_of_children (by rw [hf]; rfl) ?_
    rw [hf]
    exact List.forall_mem_singleton.2 (hconstant hd)

/-- **Retyping** keeps purity, and the lack of it. -/
theorem Retyped.isPure_eq {ty : Ty} (h : Retyped ty e r) : c.isPure r = c.isPure e := by
  induction h with
  | same => rfl
  | constant _ hf _ _ hr | defaultOf _ hf _ _ hr | throw _ hf _ hr | jump _ hf _ hr =>
    rw [Catalog.isPure, Catalog.isPure, purity_of_form hf, purity_of_form hr]
    rfl
  | conditional _ hf _ _ _ _ hr iha ihb =>
    rw [Catalog.isPure, Catalog.isPure, purity_of_form hf, purity_of_form hr]
    change (_ && c.isPure _ && c.isPure _) = (_ && c.isPure _ && c.isPure _)
    rw [iha, ihb]
  | block _ hf _ _ hr ih =>
    rw [Catalog.isPure, Catalog.isPure, purity_of_form hf, purity_of_form hr]
    simp only [formPurity, isPureForm, Form.map, List.map_append, List.all_append]
    change (_ && (c.isPure _ && true)) = (_ && (c.isPure _ && true))
    rw [ih]
  | discarded _ _ _ _ hr =>
    rw [Catalog.isPure, purity_of_form hr]
    exact Bool.and_true _
  | converted _ _ _ _ hr =>
    rw [Catalog.isPure, purity_of_form hr]
    rfl

theorem Retyped.isPure {ty : Ty} (h : Retyped ty e r) (he : c.isPure e = true) : c.isPure r = true :=
  h.isPure_eq.trans he

theorem Substituted.keepsPurity {s : Substitution} (h : Substituted s e r) (hs : ∀ p ∈ s, c.isPure p.2 = true) :
    c.KeepsPurity e r := by
  induction h with
  | done => exact fun _ => id
  | @var s e x hf =>
    intro use he
    cases hl : s.lookup x with
    | none => exact he
    | some a =>
      obtain ⟨_, _, hs', _⟩ := List.lookup_eq_some_iff.1 hl
      cases use with
      | evaluated => exact hs (x, a) (by simp [hs'])
      | invoked =>
        rw [purity_of_form hf] at he
        cases he
  | node _ hty hrel _ ih =>
    refine keepsPurity_of_rel hty ((Form.rel_of_scoped hrel).mono ?_)
    rintro a b ⟨bound, hR⟩
    exact ih _ _ hR fun p hp => hs p (List.mem_of_mem_filter hp)

end

/-! ### Steps, inlining and visits -/

namespace Optimizer

variable {σ κ : Type} {o : Optimizer σ κ} {c : Catalog} {cx : Context} {e n r : Expr}

theorem Throws.isPure {t : Expr} (h : o.Throws n t) (hn : c.isPure n = true)
    (hlambda : ∀ params body, n.form ≠ .lambda params body) : c.isPure t = true := by
  obtain ht | ⟨callee, args, params, hf, hc, _⟩ := h.mem
  · exact isPure_child hn hlambda ht
  · rw [Catalog.isPure, purity_of_form hf] at hn
    obtain ⟨_, _, hc', hbody⟩ := lambda_of_pure (Bool.and_eq_true_iff.1 hn).1
    cases hc.symm.trans hc'
    exact hbody

/-- **One step** keeps purity. -/
theorem Step.isPure (h : o.Step n cx r) (hn : c.isPure n = true) : c.isPure r = true := by
  by_cases hlambda : ∃ params body, n.form = .lambda params body
  · obtain ⟨params, body, hf⟩ := hlambda
    rwa [h.eq_of_lambda hf]
  have hlambda : ∀ params body, n.form ≠ .lambda params body := fun params body hf => hlambda ⟨params, body, hf⟩
  have hparts : ∀ d ∈ n.form.children, c.isPure d = true := fun d => isPure_child hn hlambda
  cases h with
  | kept => exact hn
  | threw ht hr => exact hr.isPure (ht.isPure hn hlambda)
  | @threwAfter pre post t t' r hops _ _ hr _ hform =>
    have hoperands : ∀ d ∈ pre ++ t :: post, c.isPure d = true :=
      fun d hd => hparts d (Form.mem_children_of_operands (hops ▸ hd))
    refine isPure_of_children (by rw [hform]; rfl) ?_
    rw [hform]
    simp only [Form.children, List.mem_append, List.mem_filter, List.mem_singleton]
    rintro d (⟨hd, _⟩ | rfl)
    · exact hoperands d (by simp [hd])
    · exact hr.isPure (hoperands t (by simp))
  | called _ _ _ _ ha => exact ha.isLeaf.isPure
  | folded _ hc => exact hc.isLeaf.isPure
  | decided b => exact (Expr.IsLeaf.constant rfl).isPure
  | branch hb hr => exact hr.isPure (hparts _ hb.mem)
  | defaulted _ _ _ _ hform => exact (Expr.IsLeaf.defaultOf hform).isPure
  | @flattened test whenTrue whenFalse innerTest innerTrue innerFalse both r hform htrue _ _ _ _ _ _ _ hboth _ hr =>
    have houter : ∀ d ∈ [test, whenTrue, whenFalse], c.isPure d = true := by rwa [hform] at hparts
    have hinner : ∀ d ∈ [innerTest, innerTrue, innerFalse], c.isPure d = true := fun d hd =>
      isPure_child (houter whenTrue (by simp)) (by simp [htrue]) (by rw [htrue]; exact hd)
    have hb : c.isPure both = true := by
      refine isPure_of_children (by rw [hboth]; rfl) ?_
      rw [hboth]
      simpa [Form.children] using ⟨houter test (by simp), hinner innerTest (by simp)⟩
    refine isPure_of_children (by rw [hr]; rfl) ?_
    rw [hr]
    simpa [Form.children] using ⟨hb, hinner innerTrue (by simp), houter whenFalse (by simp)⟩
  | simplified hform =>
    rw [Catalog.isPure, purity_of_form hform] at hn
    cases hn

/-- **Inlining** keeps purity. -/
theorem Inlines.isPure {reduced : Expr} (h : o.Inlines n reduced) (hn : c.isPure n = true) : c.isPure reduced = true := by
  obtain ⟨callee, params, body, args, _, b, hform, hcallee, _, ⟨_, _, s, hlit, hsub⟩, hr⟩ := h
  have hbody : c.isPure body = true := by
    rw [Catalog.isPure, purity_of_form hform] at hn
    obtain ⟨_, _, hc, hbody⟩ := lambda_of_pure (Bool.and_eq_true_iff.1 hn).1
    cases hcallee.symm.trans hc
    exact hbody
  refine hr.isPure (hsub.keepsPurity (fun q hq => ?_) .evaluated hbody)
  obtain ⟨p, _, _, value, d, _, _, hd, hrl⟩ := exists_left_of_forall₂ hlit hq
  exact hrl.isPure (Expr.IsLeaf.constant hd).isPure

theorem keepsPurity_of_inContext {R : Expr × Context → Expr → Prop} (hR : ∀ p d, R p d → c.KeepsPurity p.1 d)
    (hrel : Form.Rel R (o.facts.inContext cx e.form) n.form) (hty : n.ty = e.ty) : c.KeepsPurity e n := by
  refine keepsPurity_of_rel hty ((o.facts.rel_of_inContext hrel).mono ?_)
  rintro a b ⟨cx, h⟩
  exact hR _ _ h

/-- **Visits** keep purity, also that of the bodies of function literals that are invoked. -/
theorem Visits.keepsPurity (h : o.Visits cx e r) : c.KeepsPurity e r := by
  induction h with
  | skipped => exact fun _ => id
  | @settled cx e n r R _ hrel hty _ hstep ih =>
    have hn : c.KeepsPurity e n := keepsPurity_of_inContext ih hrel hty
    intro use he
    cases use with
    | evaluated => exact hstep.isPure (hn .evaluated he)
    | invoked =>
      obtain ⟨params, body, hf, _⟩ := lambda_of_pure (hn .invoked he)
      rw [hstep.eq_of_lambda hf]
      exact hn .invoked he
  | @inlined cx e n reduced r R _ hrel hty hin _ ih ihr =>
    have hn : c.KeepsPurity e n := keepsPurity_of_inContext ih hrel hty
    intro use he
    cases use with
    | evaluated => exact ihr .evaluated (hin.isPure (hn .evaluated he))
    | invoked =>
      obtain ⟨params, body, hf, _⟩ := lambda_of_pure (hn .invoked he)
      obtain ⟨_, _, _, _, _, _, hform, _⟩ := hin
      cases hf.symm.trans hform

end Optimizer

/-- **Purity is kept**: whatever the context, the settings, the catalog and the evaluators, and with hooks that replace
nothing, what a visit or a whole run makes of an expression without side effects has none. -/
theorem purity_kept {σ κ : Type} (catalog : Catalog) (evaluators : Evaluators σ κ) (hooks : Hooks σ) (settings : Settings)
    (hooks_transparent : hooks.Transparent) (e : Expr) (cx : Context) (s : Progress σ) (identified : e.Identified s.nodes)
    (pure : catalog.isPure e = true) :
    let o : Optimizer σ κ := ⟨catalog.facts, evaluators, hooks, settings⟩
    (∀ r s', o.visit e cx s = .ok r s' → catalog.isPure r = true) ∧
      ∀ r s', o.optimize e s = .ok r s' → catalog.isPure r = true := by
  intro o
  constructor
  · intro r s' hrun
    exact (Optimizer.visits_of_visit hooks_transparent identified hrun).keepsPurity .evaluated pure
  · intro r s' hrun
    obtain ⟨rfl | h, _⟩ := Optimizer.visits_of_optimize hooks_transparent identified hrun
    · exact pure
    · exact h.keepsPurity .evaluated pure

open Store

/-- A function literal that gives a function literal, whose body calls a method of the library on the parameter of the
first; it is invoked on a text. -/
def deferredCall : Fresh .node Expr := do
  let x : Var := ⟨0, "x", .string⟩
  let method : Member := ⟨"f", .object, .method, true, [⟨"text", .string⟩], .string, none⟩
  let body ← Expr.lambda [] (← Expr.call none method [← Expr.var x])
  Expr.invoke (← Expr.lambda [x] body) [← Expr.string "a"]

theorem deferredCall_reaches : making.reaches initial deferredCall fun st e => e ∈ st := by
  refine making.ofBind (Expr.make_mem rfl (List.forall_mem_nil _)) fun st₁ _ x hx => ?_
  refine making.ofBind (Expr.make_mem rfl (by simpa [Form.children] using hx)) fun st₂ _ call hcall => ?_
  refine making.ofBind (Expr.make_mem rfl (by simpa [Form.children] using hcall)) fun st₃ _ body hbody => ?_
  refine making.ofBind (Expr.make_mem rfl (by simpa [Form.children] using hbody)) fun st₄ _ callee hcallee => ?_
  refine making.ofBind (Expr.make_mem rfl (List.forall_mem_nil _)) fun st₅ hst₅ arg harg => ?_
  refine Expr.make_mem rfl ?_
  simpa [Form.children] using ⟨mem_of_le hst₅ hcallee, harg⟩

/-- The call is not pure, and the invocation that defers it is. -/
theorem purity_kept_deferredCall :
    let e := (deferredCall ⟨0⟩).1
    let s : Progress Console := ⟨(deferredCall ⟨0⟩).2, ⟨⟨0⟩, .empty⟩, .empty⟩
    e.Identified s.nodes ∧ Catalog.empty.isPure e = true ∧ ∃ r s', Optimizer.bare.optimize e s = .ok r s' ∧
      s'.tally.total = 1 ∧ r.form.children.any (!Catalog.empty.isPure ·) = true ∧ Catalog.empty.isPure r = true := by
  intro e s
  have identified : e.Identified s.nodes := Expr.identified_of_reaches deferredCall_reaches _
  have pure : Catalog.empty.isPure e = true := by decide +kernel
  have hok : Run.passes (fun r s' => s'.tally.total == 1 && r.form.children.any (!Catalog.empty.isPure ·))
      (Optimizer.bare.optimize e s) = true := by decide +kernel
  obtain ⟨r, s', hrun, htest⟩ := Run.exists_of_passes hok
  obtain ⟨htotal, hcall⟩ := Bool.and_eq_true_iff.1 htest
  exact ⟨identified, pure, r, s', hrun, by simpa using htotal, hcall,
    (purity_kept .empty Registry.empty.natives .none .standard Hooks.none_transparent e .plain s identified pure).2
      r s' hrun⟩

end TypedTree
