import TypedTree.Proofs.NormalForms

/-!
# Merged conditionals

The conditional `c ? (d ? t : f') : f` becomes `(c && d) ? t : f` when `f` and `f'` are equal constants or defaults. Here is
what this does to the value of the conditional, however its tests and its first branch are evaluated.

`Valuation.eval` evaluates constants, defaults, conditionals and connectives; what all other expressions do is given, side
effects and exceptions included. Values count as the same when nothing can tell them apart (`Value.isSame`): doubles by their
bits and references by their identities. The equality of expressions is coarser than that (`Value.isSame_iff_of_equals`), and
so the value may change, but only where the outer test is true, the inner one is not and the branches are constants that are
twins (`flattened_same_iff`).
-/

namespace TypedTree

/-! ### Values that can be told apart -/

namespace Value

/-- The identity of a reference. -/
def identity? : Value → Option Nat
  | .array a => some a.id
  | .object o => some o.id
  | .exception e => some e.id
  | .delegate d => some d.id
  | _ => none

/-- Whether nothing can tell the values apart: doubles have the same bits, references the same identity, and everything else
the same structure. -/
def isSame : Value → Value → Bool
  | .double x, .double y => x == y
  | v, w => v.defaultEquals w

/-- Two values that have the same structure and are not the same. -/
inductive Twins : Value → Value → Prop where
  /-- The two zeros. -/
  | zeros {x y : Double} : x.isZero = true → y.isZero = true → x ≠ y → Twins (.double x) (.double y)
  /-- References with identities of their own. -/
  | references {v w : Value} {i j : Nat} : v.identity? = some i → w.identity? = some j → i ≠ j → Twins v w

variable {v w : Value}

theorem isSame_self (v : Value) : v.isSame v = true := by
  cases v <;> simp [isSame, defaultEquals, equals]

theorem not_twins_self (v : Value) : ¬ v.Twins v := by
  intro h
  cases h with
  | zeros _ _ h => exact h rfl
  | references hi hj h => exact h (Option.some.inj (hi.symm.trans hj))

/-- Values without identity are twins only when they are doubles. -/
theorem not_twins_of_identity? (hi : v.identity? = none) (hdouble : ∀ x, v ≠ .double x) : ¬ v.Twins w := by
  intro h
  cases h with
  | zeros => exact hdouble _ rfl
  | references h => cases hi.symm.trans h

/-- References are the same exactly when they are no twins. -/
theorem twins_iff_of_identity? {i j : Nat} (hi : v.identity? = some i) (hj : w.identity? = some j) :
    v.Twins w ↔ i ≠ j := by
  refine ⟨fun h => ?_, .references hi hj⟩
  cases h with
  | zeros => cases hi
  | references hi' hj' h =>
    cases hi.symm.trans hi'
    cases hj.symm.trans hj'
    exact h

/-- **Twins** are what structural equality takes for the same. -/
theorem isSame_iff_of_equals (h : v.equals w = true) : v.isSame w = true ↔ ¬ v.Twins w := by
  rw [equals_iff] at h
  cases h with
  | @double x y h =>
    refine ⟨fun hsame htwins => ?_, fun h' => ?_⟩
    · have hxy : x = y := by simpa [isSame] using hsame
      exact not_twins_self (.double x) (hxy ▸ htwins)
    · obtain ⟨_, _, rfl | ⟨hx, hy⟩⟩ := Double.equals_iff.1 h
      · exact isSame_self _
      · by_contra hsame
        refine h' (.zeros hx hy fun hxy => hsame ?_)
        rw [hxy]
        exact isSame_self _
  | array | object | exception | delegate =>
    rw [twins_iff_of_identity? rfl rfl]
    simp [isSame, defaultEquals]
  | null | bool | int | long | char | string =>
    exact iff_of_true (isSame_self _) (not_twins_of_identity? rfl (by simp))

end Value

/-! ### Evaluation of conditionals -/

/-- Computations with side effects on the state `σ`, which may raise an exception. -/
abbrev Computation (σ : Type) := EStateM Exception σ

/-- What the expressions do that are not constants, defaults, conditionals or connectives, and what the defaults are. -/
structure Valuation (σ : Type) where
  /-- The evaluation of other expressions. -/
  other : Expr → Computation σ Value
  /-- The default of a type. -/
  default : Ty → Value

namespace Valuation

variable {σ : Type} (V : Valuation σ) {e : Expr}

/-- Evaluates a node, given the evaluations of its sub-expressions. A test that does not give a truth value counts as not
true. -/
def evalNode (e : Expr) : Form (Computation σ Value) → Computation σ Value
  | .constant value => pure value
  | .defaultOf => pure (V.default e.ty)
  | .conditional test whenTrue whenFalse => do
    if (← test).bool? == some true then whenTrue else whenFalse
  | .logical op left right => do
    let value ← left
    if (value.bool? == some true) == (op == .and) then right else pure value
  | _ => V.other e

/-- Evaluates an expression. -/
def eval (e : Expr) : Computation σ Value := Expr.recurse (fun e form () => V.evalNode e (form.map (·.2 ()))) e ()

theorem eval_of_form {form : Form Expr} (h : e.form = form) : V.eval e = V.evalNode e (form.map V.eval) := by
  rw [eval, Expr.recurse_eq, h]
  simp only [Form.map_map]
  rfl

section Steps

variable {V} {test whenTrue whenFalse left right : Expr} {s s₁ : σ} {u : Value} {raised : Exception}

theorem eval_conditional_ok (hform : e.form = .conditional test whenTrue whenFalse) (h : V.eval test s = .ok u s₁) :
    V.eval e s = if u.bool? = some true then V.eval whenTrue s₁ else V.eval whenFalse s₁ := by
  rw [V.eval_of_form hform]
  by_cases hu : u.bool? = some true <;> simp [evalNode, Form.map, bind, EStateM.bind, h, hu]

theorem eval_conditional_error (hform : e.form = .conditional test whenTrue whenFalse)
    (h : V.eval test s = .error raised s₁) : V.eval e s = .error raised s₁ := by
  rw [V.eval_of_form hform]
  simp [evalNode, Form.map, bind, EStateM.bind, h]

theorem eval_and_ok (hform : e.form = .logical .and left right) (h : V.eval left s = .ok u s₁) :
    V.eval e s = if u.bool? = some true then V.eval right s₁ else .ok u s₁ := by
  rw [V.eval_of_form hform]
  by_cases hu : u.bool? = some true <;> simp [evalNode, Form.map, bind, EStateM.bind, pure, EStateM.pure, h, hu]

theorem eval_and_error (hform : e.form = .logical .and left right) (h : V.eval left s = .error raised s₁) :
    V.eval e s = .error raised s₁ := by
  rw [V.eval_of_form hform]
  simp [evalNode, Form.map, bind, EStateM.bind, h]

end Steps

/-- The two tests lead to the second branch of the inner conditional: the outer one is true, and the inner one is not. -/
def FallsThrough (test innerTest : Expr) (s s' : σ) : Prop :=
  ∃ u s₁ w, V.eval test s = .ok u s₁ ∧ u.bool? = some true ∧ V.eval innerTest s₁ = .ok w s' ∧ w.bool? ≠ some true

/-- Two nested conditionals and the merged one do the same, except that the former evaluate `innerFalse` where the latter
evaluates `whenFalse` when the inner test fails. -/
theorem eval_merged {node test whenTrue whenFalse innerTest innerTrue innerFalse both flat : Expr}
    (hnode : node.form = .conditional test whenTrue whenFalse)
    (htrue : whenTrue.form = .conditional innerTest innerTrue innerFalse)
    (hboth : both.form = .logical .and test innerTest) (hflat : flat.form = .conditional both innerTrue whenFalse) (s : σ) :
    (∃ s', V.FallsThrough test innerTest s s' ∧ V.eval node s = V.eval innerFalse s' ∧
      V.eval flat s = V.eval whenFalse s') ∨
      (∀ s', ¬ V.FallsThrough test innerTest s s') ∧ V.eval node s = V.eval flat s := by
  cases htest : V.eval test s with
  | error e s₁ =>
    refine .inr ⟨?_, ?_⟩
    · rintro s' ⟨_, _, _, h, _⟩
      cases htest.symm.trans h
    · rw [eval_conditional_error hnode htest, eval_conditional_error hflat (eval_and_error hboth htest)]
  | ok u s₁ =>
    have hnode' := eval_conditional_ok hnode htest
    have hboth' := eval_and_ok hboth htest
    by_cases hu : u.bool? = some true
    · rw [if_pos hu] at hnode' hboth'
      cases hinner : V.eval innerTest s₁ with
      | error e s₂ =>
        refine .inr ⟨?_, ?_⟩
        · rintro s' ⟨_, _, _, h, _, h', _⟩
          cases htest.symm.trans h
          cases hinner.symm.trans h'
        · rw [hnode', eval_conditional_error htrue hinner, eval_conditional_error hflat (hboth'.trans hinner)]
      | ok w s₂ =>
        rw [eval_conditional_ok htrue hinner] at hnode'
        rw [hnode', eval_conditional_ok hflat (hboth'.trans hinner)]
        by_cases hw : w.bool? = some true
        · refine .inr ⟨?_, by rw [if_pos hw, if_pos hw]⟩
          rintro s' ⟨_, _, _, h, _, h', hw'⟩
          cases htest.symm.trans h
          cases hinner.symm.trans h'
          exact hw' hw
        · exact .inl ⟨s₂, ⟨u, s₁, w, htest, hu, hinner, hw⟩, if_neg hw, if_neg hw⟩
    · rw [if_neg hu] at hnode' hboth'
      refine .inr ⟨?_, ?_⟩
      · rintro s' ⟨_, _, _, h, hu', _⟩
        cases htest.symm.trans h
        exact hu hu'
      · rw [hnode', eval_conditional_ok hflat hboth', if_neg hu]

end Valuation

/-- **The same result**: the same exception, or values that cannot be told apart, and the same side effects. -/
inductive SameResult {σ : Type} : EStateM.Result Exception σ Value → EStateM.Result Exception σ Value → Prop where
  | ok {v w : Value} {s : σ} : v.isSame w = true → SameResult (.ok v s) (.ok w s)
  | error {e : Exception} {s : σ} : SameResult (.error e s) (.error e s)

theorem SameResult.refl {σ : Type} (r : EStateM.Result Exception σ Value) : SameResult r r := by
  cases r with
  | ok v s => exact .ok v.isSame_self
  | error => exact .error

/-- Expressions that are one node, or equal constants or defaults, evaluate to the same unless they are twins. -/
theorem Valuation.sameResult_leaves {σ : Type} (V : Valuation σ) {a b : Expr} (h : a = b ∨ Expr.SameLeaf a b) (s : σ) :
    SameResult (V.eval a s) (V.eval b s) ↔ ¬ ∃ v w, a.form = .constant v ∧ b.form = .constant w ∧ v.Twins w := by
  obtain rfl | ⟨hty, ⟨ha, hb⟩ | ⟨v, w, ha, hb, hvw⟩⟩ := h
  · refine iff_of_true (.refl _) ?_
    rintro ⟨v, w, hv, hw, h⟩
    cases hv.symm.trans hw
    exact v.not_twins_self h
  · refine iff_of_true ?_ ?_
    · rw [V.eval_of_form ha, V.eval_of_form hb]
      simp only [evalNode, Form.map, hty]
      exact .refl _
    · rintro ⟨v, _, hv, _⟩
      cases ha.symm.trans hv
  · have heval : SameResult (V.eval a s) (V.eval b s) ↔ v.isSame w = true := by
      rw [V.eval_of_form ha, V.eval_of_form hb]
      refine ⟨fun h => ?_, .ok⟩
      cases h with
      | ok h => exact h
    rw [heval, Value.isSame_iff_of_equals hvw, ha, hb]
    simp

/-- **Merged conditionals**: whenever a conditional is merged with the one in its first branch, then, however the tests and
the remaining branch are evaluated, the result is the same as before, unless the outer test is true, the inner test is not,
and the two branches that became one are constants that are twins. -/
theorem flattened_same_iff (node test whenTrue whenFalse flat : Expr) (nodes : Supply .node)
    (hform : node.form = .conditional test whenTrue whenFalse) (identified : node.Identified nodes)
    (hflat : (Optimizer.flatten? node test whenTrue whenFalse nodes).1 = some flat) :
    ∃ innerTest innerTrue innerFalse, whenTrue.form = .conditional innerTest innerTrue innerFalse ∧
      ∀ {σ : Type} (V : Valuation σ) (s : σ), SameResult (V.eval node s) (V.eval flat s) ↔
        ¬ ((∃ s', V.FallsThrough test innerTest s s') ∧
          ∃ v w, innerFalse.form = .constant v ∧ whenFalse.form = .constant w ∧ v.Twins w) := by
  obtain ⟨st, hst, hn⟩ := identified
  obtain ⟨heq, _⟩ | ⟨innerTest, innerTrue, innerFalse, htrue, ⟨_, hleaf, hequals⟩, heq⟩ :=
    Optimizer.flatten?_cases node test whenTrue whenFalse
  · rw [heq] at hflat
    cases hflat
  · refine ⟨innerTest, innerTrue, innerFalse, htrue, fun V s => ?_⟩
    obtain ⟨_, _, _, _, hfound, _, both, _, hboth, _, hmerged⟩ := Optimizer.merge_reaches hn hform htrue _ le_rfl nodes hst
    rw [← heq, hflat] at hfound
    cases hfound
    have hmem : innerFalse ∈ st ∧ whenFalse ∈ st := by
      have hparts : ∀ c ∈ [test, whenTrue, whenFalse], c ∈ st := fun c hc => st.children_mem hn (by rw [hform]; exact hc)
      exact ⟨st.children_mem (hparts whenTrue (by simp)) (by simp [htrue, Form.children]), hparts whenFalse (by simp)⟩
    have hleaves : innerFalse = whenFalse ∨ Expr.SameLeaf innerFalse whenFalse :=
      ((Expr.equals_iff_sameLeaf hleaf).1 hequals).imp_left (Store.eq_of_same hmem.1 hmem.2)
    rcases V.eval_merged hform htrue hboth hmerged s with ⟨s', hfalls, hbefore, hafter⟩ | ⟨hnot, hsame⟩
    · rw [hbefore, hafter, V.sameResult_leaves hleaves]
      exact not_congr ⟨fun h => ⟨⟨s', hfalls⟩, h⟩, fun h => h.2⟩
    · rw [hsame]
      refine iff_of_true (.refl _) ?_
      rintro ⟨⟨s', hfalls⟩, _⟩
      exact hnot s' hfalls

/-! ### Twins in the two branches -/

open Store

/-- The conditional `x ? (y ? z : first) : second`, with two constants for branches. -/
def sharedBranch (first second : Value) (ty : Ty) : Fresh .node Expr := do
  let x ← Expr.var ⟨0, "x", .bool⟩
  let y ← Expr.var ⟨1, "y", .bool⟩
  let z ← Expr.var ⟨2, "z", ty⟩
  let inner ← Expr.conditional y z (← Expr.make ty (.constant first)) ty
  Expr.conditional x inner (← Expr.make ty (.constant second)) ty

theorem sharedBranch_reaches (first second : Value) (ty : Ty) :
    making.reaches initial (sharedBranch first second ty) fun st e => e ∈ st := by
  refine making.ofBind (Expr.make_mem rfl (List.forall_mem_nil _)) fun st₁ _ x hx => ?_
  refine making.ofBind (Expr.make_mem rfl (List.forall_mem_nil _)) fun st₂ hst₂ y hy => ?_
  refine making.ofBind (Expr.make_mem rfl (List.forall_mem_nil _)) fun st₃ hst₃ z hz => ?_
  refine making.ofBind (Expr.make_mem rfl (List.forall_mem_nil _)) fun st₄ hst₄ a ha => ?_
  refine making.ofBind (Expr.make_mem rfl ?_) fun st₅ hst₅ inner hinner => ?_
  · simpa [Form.children] using ⟨mem_of_le (hst₃.trans hst₄) hy, mem_of_le hst₄ hz, ha⟩
  refine making.ofBind (Expr.make_mem rfl (List.forall_mem_nil _)) fun st₆ hst₆ b hb => ?_
  refine Expr.make_mem rfl ?_
  simpa [Form.children] using
    ⟨mem_of_le ((((hst₂.trans hst₃).trans hst₄).trans hst₅).trans hst₆) hx, mem_of_le hst₆ hinner, hb⟩

/-- The variable `x` is true, and all others are false. -/
def onlyFirst : Valuation Unit where
  other e := pure (.bool (e.form.agree (fun _ _ => true) (.var ⟨0, "x", .bool⟩ : Form Expr)))
  default _ := .null

/-- An array of one text, with an identity of its own. -/
def textArray (id : Nat) : Value := .array ⟨id, .string, [1], [.string "a"]⟩

/-- Equal texts are the same, and so is the result. -/
theorem flattened_same_iff_texts :
    let e := (sharedBranch (.string "a") (.string "a") .string ⟨0⟩).1
    let nodes := (sharedBranch (.string "a") (.string "a") .string ⟨0⟩).2
    e.Identified nodes ∧ ∃ test whenTrue whenFalse flat, e.form = .conditional test whenTrue whenFalse ∧
      (Optimizer.flatten? e test whenTrue whenFalse nodes).1 = some flat ∧
      ∀ {σ : Type} (V : Valuation σ) (s : σ), SameResult (V.eval e s) (V.eval flat s) := by
  intro e nodes
  have identified : e.Identified nodes := Expr.identified_of_reaches (sharedBranch_reaches _ _ _) _
  have hparts : ∃ test whenTrue whenFalse, e.form = .conditional test whenTrue whenFalse ∧
      whenFalse.form = .constant (.string "a") ∧
      (∀ innerTest innerTrue innerFalse, whenTrue.form = .conditional innerTest innerTrue innerFalse →
        innerFalse.form = .constant (.string "a")) ∧
      (Optimizer.flatten? e test whenTrue whenFalse nodes).1.isSome = true := by
    refine ⟨_, _, _, rfl, rfl, ?_, by decide +kernel⟩
    rintro _ _ _ ⟨⟩
    rfl
  obtain ⟨test, whenTrue, whenFalse, hform, hfalse, hinner, hsome⟩ := hparts
  obtain ⟨flat, hflat⟩ := Option.isSome_iff_exists.1 hsome
  refine ⟨identified, test, whenTrue, whenFalse, flat, hform, hflat, fun V s => ?_⟩
  obtain ⟨_, _, _, htrue, hsame⟩ := flattened_same_iff e test whenTrue whenFalse flat nodes hform identified hflat
  refine (hsame V s).2 ?_
  rintro ⟨_, v, w, hv, hw, h⟩
  cases (hinner _ _ _ htrue).symm.trans hv
  cases hfalse.symm.trans hw
  exact Value.not_twins_self _ h

/-- Two arrays with the same items are merged, and the result is the other array, which can be told apart. -/
theorem flattened_tells_apart :
    let e := (sharedBranch (textArray 0) (textArray 1) (.array .string 1) ⟨0⟩).1
    let s : Progress Console := ⟨(sharedBranch (textArray 0) (textArray 1) (.array .string 1) ⟨0⟩).2, ⟨⟨2⟩, .empty⟩, .empty⟩
    e.Identified s.nodes ∧ ((onlyFirst.eval e).run' ()).any (·.isSame (textArray 0)) = true ∧
      ∃ r s', Optimizer.bare.optimize e s = .ok r s' ∧ ((onlyFirst.eval r).run' ()).any (!·.isSame (textArray 0)) = true := by
  intro e s
  refine ⟨Expr.identified_of_reaches (sharedBranch_reaches _ _ _) _, by decide +kernel, ?_⟩
  have hok : Run.passes (fun r _ => ((onlyFirst.eval r).run' ()).any (!·.isSame (textArray 0)))
      (Optimizer.bare.optimize e s) = true := by decide +kernel
  exact Run.exists_of_passes hok

end TypedTree
