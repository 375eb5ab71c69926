import TypedTree.Proofs.Rules.Basic

/-!
# Rules for type tests and conversions

A type test of a known value is decided, and a conversion of a known value is folded.
-/

namespace TypedTree.Optimizer

open Store

variable {σ κ : Type} {o : Optimizer σ κ} {E : Halt → Prop} {st : Store} {cx : Context} {n : Expr}
variable (hE : ∀ fault, E (.fault fault))

theorem decide_reaches (hn : n ∈ st) {operand : Expr} {target : Ty} {mode : TestMode} {outcome : Option Bool}
    (hform : n.form = .typeTest operand target mode)
    (hrule : ∀ again, o.rule again n cx = foldTo n (outcome.map Expr.boolean)) :
    (o.logic E).reaches st (foldTo n (outcome.map Expr.boolean)) (o.Settles cx n) := by
  cases outcome with
  | none => exact reaches_kept_of_eq hn hrule rfl
  | some b =>
    refine (o.logic E).ofBind Run.reaches_record fun _ _ _ _ => ?_
    exact (o.logic E).ofPure fun st' _ => ⟨st'.boolean_mem b, .decided b hform⟩

include hE

theorem typeTest_reaches (hn : n ∈ st) {operand : Expr} {target : Ty} {mode : TestMode}
    (hform : n.form = .typeTest operand target mode)
    (hrule : ∀ again, o.rule again n cx = o.typeTest n operand target mode) :
    (o.logic E).reaches st (o.typeTest n operand target mode) (o.Settles cx n) := by
  have hoperand : operand ∈ st := child hn (by rw [hform]; exact List.mem_cons_self)
  by_cases h₁ : o.facts.alwaysThrows operand = true
  · simp only [typeTest, h₁, if_true]
    exact throwInstead_reaches hE hoperand (.typeTest hform h₁)
  by_cases h₂ : o.facts.isPure operand = true
  · simp only [typeTest, h₁, h₂, if_true, if_false, Bool.false_eq_true] at hrule ⊢
    exact decide_reaches hn hform hrule
  · exact reaches_kept_of_eq hn hrule (by simp only [typeTest, h₁, h₂, if_false, Bool.false_eq_true])

theorem convert_reaches (hn : n ∈ st) {operand : Expr} (hform : n.form = .convert operand)
    (hrule : ∀ again, o.rule again n cx = o.convert n operand) :
    (o.logic E).reaches st (o.convert n operand) (o.Settles cx n) := by
  have hoperand : operand ∈ st := child hn (by rw [hform]; exact List.mem_cons_self)
  by_cases h₁ : o.facts.alwaysThrows operand = true
  · simp only [convert, h₁, if_true]
    exact throwInstead_reaches hE hoperand (.convert hform h₁)
  by_cases h₂ : o.settings.folding = true
  · cases h₃ : o.facts.constantValue? operand with
    | none => exact reaches_kept_of_eq hn hrule (by simp only [convert, h₁, h₂, h₃, if_true, if_false, Bool.false_eq_true])
    | some value =>
      by_cases h₄ : value.isCompatible n.ty = true
      · simp only [convert, h₁, h₂, h₃, h₄, if_true, if_false, Bool.false_eq_true]
        refine (o.logic E).ofBind (Run.reaches_fresh (Expr.constant_reaches value n.ty)) ?_
        rintro st₁ _ r ⟨hr, _, hty, hf⟩
        refine (o.logic E).ofBind Run.reaches_record fun _ hst _ _ => ?_
        refine (o.logic E).ofPure fun _ hk => ⟨mem_of_le (hst.trans hk) hr, .folded ?_ (.found hty hf (.converted hform h₃ h₄))⟩
        rw [hform]
        rfl
      · exact reaches_kept_of_eq hn hrule
          (by simp only [convert, h₁, h₂, h₃, h₄, if_true, if_false, Bool.false_eq_true])
  · exact reaches_kept_of_eq hn hrule (by simp only [convert, h₁, h₂, if_false, Bool.false_eq_true])

end TypedTree.Optimizer
