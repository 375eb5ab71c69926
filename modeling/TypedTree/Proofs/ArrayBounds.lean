import Mathlib.Algebra.BigOperators.Ring.List
import Mathlib.Algebra.Ring.Nat
import Mathlib.Data.List.Forall2
import TypedTree.Proofs.Rules.Basic

/-!
# Arrays made from bounds

A new array of default items is folded when its bounds are lengths and it does not have too many items. The number of items is
the product of the lengths, and it is computed from the left: it is known exactly when the products of the first lengths, for
each number of them, lie in the range of lengths (`product?_eq_some_iff`).

So an array is folded when it has few enough items, with one exception. A length of zero makes an array without items, but
the product of the lengths before it may have left the range already, and then the array is not folded
(`array_bounds_refused_iff`, `zero_bound_refused`).
-/

namespace TypedTree

/-! ### Products of lengths -/

/-- The products of the first lengths, for each number of them, lie in the range. -/
def StaysInRange (lengths : List Nat) : Prop := ∀ first, first <+: lengths → first.prod < wordSize

theorem forall_prefix_cons {α : Type} {P : List α → Prop} {a : α} {as : List α} :
    (∀ first, first <+: a :: as → P first) ↔ P [] ∧ ∀ first, first <+: as → P (a :: first) := by
  simp only [List.prefix_cons_iff]
  refine ⟨fun h => ⟨h [] (.inl rfl), fun first hfirst => h _ (.inr ⟨first, rfl, hfirst⟩)⟩, ?_⟩
  rintro ⟨hnil, hcons⟩ _ (rfl | ⟨first, rfl, hfirst⟩)
  · exact hnil
  · exact hcons first hfirst

/-- The loop goes on with the product so far. The induction is on the lengths that are left. -/
theorem foldlM_product {total : Nat} (htotal : total < wordSize) (lengths : List Nat) (product : Nat) :
    lengths.foldlM (fun total n => if total * n < wordSize then some (total * n) else none) total = some product ↔
      (∀ first, first <+: lengths → total * first.prod < wordSize) ∧ product = total * lengths.prod := by
  induction lengths generalizing total with
  | nil => simp [htotal, eq_comm]
  | cons n lengths ih =>
    rw [List.foldlM_cons]
    by_cases hnext : total * n < wordSize
    · rw [if_pos hnext, Option.bind_eq_bind, Option.bind_some, ih hnext]
      simp only [forall_prefix_cons, List.prod_nil, List.prod_cons, Nat.mul_one, htotal, true_and, Nat.mul_assoc]
    · simp only [hnext, if_false, Option.bind_eq_bind, Option.bind_none, reduceCtorEq, false_iff, not_and]
      intro hfirst
      exact absurd (hfirst [n] (by simp)) (by simpa using hnext)

theorem product?_eq_some_iff {lengths : List Nat} {product : Nat} :
    product? lengths = some product ↔ StaysInRange lengths ∧ product = lengths.prod := by
  rw [product?, foldlM_product (by decide)]
  simp only [Nat.one_mul, StaysInRange]

/-- A product that is smaller than that of the first lengths is zero. -/
theorem zero_mem_of_prod_lt {first lengths : List Nat} (hfirst : first <+: lengths) (h : lengths.prod < first.prod) :
    0 ∈ lengths := by
  obtain ⟨rest, rfl⟩ := hfirst
  rw [List.prod_append] at h
  have hrest : rest.prod = 0 := by
    by_contra hne
    have := Nat.le_mul_of_pos_right first.prod (Nat.pos_of_ne_zero hne)
    omega
  exact List.mem_append_right _ (List.prod_eq_zero_iff.1 hrest)

/-! ### Folding -/

/-- The values are the lengths, as integers of either width. -/
def Sizes (bounds : List Value) (lengths : List Nat) : Prop :=
  List.Forall₂ (fun v (n : Nat) => v.integer? = some (n : Int)) bounds lengths

theorem Sizes.ofValues {bounds : List Value} {lengths : List Nat} (h : Sizes bounds lengths) :
    Bounds.ofValues bounds = .lengths lengths := by
  induction h with
  | nil => rfl
  | cons hv _ ih =>
    have hpos : ∀ n : Nat, ¬ (n : Int) < 0 := fun n => by omega
    simp only [Bounds.ofValues, hv, hpos, if_false, ih, Int.toNat_natCast]

theorem sizes_of_ofValues {bounds : List Value} {lengths : List Nat} (h : Bounds.ofValues bounds = .lengths lengths) :
    Sizes bounds lengths := by
  fun_induction Bounds.ofValues bounds generalizing lengths with
  | case1 =>
    cases h
    exact .nil
  | case2 => cases h
  | case3 => cases h
  | case4 v bounds i hi hpos rest hrest ih =>
    cases h
    exact .cons (by rw [hi, Int.toNat_of_nonneg (not_lt.1 hpos)]) (ih hrest)
  | case5 v bounds i hi hpos hother ih => exact absurd h (hother lengths)

theorem Build.bind_references {α β : Type} (x : Fresh .reference α) (f : α → Build β) (s : Supplies) :
    ((liftM x : Build α) >>= f) s = f (x s.references).1 { s with references := (x s.references).2 } := rfl

namespace Expr

variable (node : Expr) {element : Ty} {bounds : List Value} {lengths : List Nat} {limit : Nat} {s : Supplies} {item : Value}

/-- An array is not folded when it has too many items, or when their number is not known. -/
theorem foldBounds_refused (hsizes : Sizes bounds lengths) (h : ¬ (StaysInRange lengths ∧ lengths.prod ≤ limit)) :
    node.foldBounds element bounds limit = pure none := by
  cases hproduct : product? lengths with
  | none => simp only [foldBounds, hsizes.ofValues, hproduct]
  | some total =>
    obtain ⟨hrange, rfl⟩ := product?_eq_some_iff.1 hproduct
    have hlimit : ¬ lengths.prod ≤ limit := fun hlimit => h ⟨hrange, hlimit⟩
    simp only [foldBounds, hsizes.ofValues, hproduct, hlimit, if_false]

/-- An array of few enough items is folded, and all its items are the default that is made first. -/
theorem foldBounds_made (hsizes : Sizes bounds lengths) (hrange : StaysInRange lengths) (hlimit : lengths.prod ≤ limit)
    (hitem : lengths.prod ≠ 0 → (elementDefault element s.references).1 = some item) :
    ∃ r s' a, node.foldBounds element bounds limit s = (some r, s') ∧ r.ty = node.ty ∧ r.form = .constant (.array a) ∧
      a.element = element ∧ a.lengths = lengths ∧ a.items = List.replicate lengths.prod item := by
  have hproduct : product? lengths = some lengths.prod := product?_eq_some_iff.2 ⟨hrange, rfl⟩
  by_cases hzero : lengths.prod = 0
  · simp only [foldBounds, hsizes.ofValues, hproduct, hzero, Nat.zero_le, if_true]
    exact ⟨_, _, ⟨s.references.next, element, lengths, []⟩, rfl, rfl, rfl, rfl, rfl, rfl⟩
  · simp only [foldBounds, hsizes.ofValues, hproduct, hlimit, hzero, if_true, if_false]
    rw [Build.bind_references, hitem hzero]
    exact ⟨_, _, ⟨_, element, lengths, _⟩, rfl, rfl, rfl, rfl, rfl, rfl⟩

/-- A default is not needed for an array without items. -/
theorem foldBounds_unknown (hsizes : Sizes bounds lengths) (hitems : lengths.prod ≠ 0)
    (hunknown : (elementDefault element s.references).1 = none) : (node.foldBounds element bounds limit s).1 = none := by
  by_cases h : StaysInRange lengths ∧ lengths.prod ≤ limit
  · have hproduct : product? lengths = some lengths.prod := product?_eq_some_iff.2 ⟨h.1, rfl⟩
    simp only [foldBounds, hsizes.ofValues, hproduct, h.2, hitems, if_true, if_false]
    rw [Build.bind_references, hunknown]
    rfl
  · rw [foldBounds_refused node hsizes h]
    rfl

/-- Where an array comes from that is made from bounds. -/
theorem foldBounds_array {r : Expr} {a : ArrayOf Value} (h : (node.foldBounds element bounds limit s).1 = some r)
    (hform : r.form = .constant (.array a)) :
    StaysInRange a.lengths ∧ ∃ item, a.items = List.replicate a.lengths.prod item ∧
      (a.lengths.prod ≠ 0 → (elementDefault element s.references).1 = some item) := by
  cases hbounds : Bounds.ofValues bounds with
  | unknown =>
    simp only [foldBounds, hbounds] at h
    cases h
  | negative =>
    simp only [foldBounds, hbounds] at h
    cases h
    cases hform
  | lengths lengths =>
    have hsizes := sizes_of_ofValues hbounds
    by_cases hfold : StaysInRange lengths ∧ lengths.prod ≤ limit
    · obtain ⟨item, hitem⟩ : ∃ item, lengths.prod ≠ 0 → (elementDefault element s.references).1 = some item := by
        by_contra hnone
        simp only [not_exists, Classical.not_imp] at hnone
        have hunknown := Option.eq_none_iff_forall_ne_some.2 fun item => (hnone item).2
        rw [foldBounds_unknown node hsizes (hnone .null).1 hunknown] at h
        cases h
      obtain ⟨r', s', a', hrun, _, hform', _, rfl, hitems⟩ := foldBounds_made node hsizes hfold.1 hfold.2 hitem
      rw [hrun] at h
      cases h
      cases hform.symm.trans hform'
      exact ⟨hfold.1, item, hitems, hitem⟩
    · rw [foldBounds_refused node hsizes hfold] at h
      cases h

end Expr

/-- An array of a known default is not folded in two cases only: it has too many items, or it has none and the product of
the lengths leaves the range before it becomes zero. Otherwise the result is a constant array of the lengths, with as many
defaults as their product. -/
theorem array_bounds_refused_iff (node : Expr) (element : Ty) (bounds : List Value) (lengths : List Nat) (limit : Nat)
    (s : Supplies) (item : Value) (sizes : Sizes bounds lengths) (known : (elementDefault element s.references).1 = some item)
    (word : limit < wordSize) :
    ((node.foldBounds element bounds limit s).1 = none ↔ limit < lengths.prod ∨ 0 ∈ lengths ∧ ¬ StaysInRange lengths) ∧
      ∀ r, (node.foldBounds element bounds limit s).1 = some r →
        r.ty = node.ty ∧ ∃ a, r.form = .constant (.array a) ∧
          a.element = element ∧ a.lengths = lengths ∧ a.items = List.replicate lengths.prod item := by
  by_cases hrange : StaysInRange lengths
  · by_cases hlimit : lengths.prod ≤ limit
    · obtain ⟨r, s', a, hrun, hty, hform, harray⟩ := Expr.foldBounds_made node sizes hrange hlimit fun _ => known
      rw [hrun]
      refine ⟨by simp [hrange, hlimit], ?_⟩
      rintro _ ⟨⟩
      exact ⟨hty, a, hform, harray⟩
    · rw [Expr.foldBounds_refused node sizes fun h => hlimit h.2]
      refine ⟨iff_of_true rfl (.inl (not_le.1 hlimit)), ?_⟩
      rintro _ ⟨⟩
  · rw [Expr.foldBounds_refused node sizes fun h => hrange h.1]
    refine ⟨iff_of_true rfl ?_, by rintro _ ⟨⟩⟩
    -- some product of first lengths leaves the range, so the product of all of them is above it or zero
    simp only [StaysInRange, not_forall, not_lt] at hrange
    obtain ⟨first, hfirst, hbig⟩ := hrange
    by_cases hlimit : limit < lengths.prod
    · exact .inl hlimit
    · refine .inr ⟨zero_mem_of_prod_lt hfirst (by omega), fun h => ?_⟩
      have := h first hfirst
      omega

/-- Two rows of three points are folded under a limit of six items, and not under one of five. -/
theorem array_bounds_refused_iff_sixPoints :
    let point : Ty := .named (Ty.declare "Point" .structKind)
    let node : Expr := ⟨.made 0, .array point 2, .newArray point .bounds []⟩
    let bounds : List Value := [.int 2, .long 3]
    let s : Supplies := ⟨⟨1⟩, ⟨0⟩⟩
    Sizes bounds [2, 3] ∧ (elementDefault point s.references).1 = some (.object ⟨0, point, []⟩) ∧
      (∃ r, (node.foldBounds point bounds 6 s).1 = some r ∧ ∃ a, r.form = .constant (.array a) ∧ a.lengths = [2, 3] ∧
        a.items = List.replicate 6 (.object ⟨0, point, []⟩)) ∧
      (node.foldBounds point bounds 5 s).1 = none := by
  intro point node bounds s
  have hsizes : Sizes bounds [2, 3] := .cons rfl (.cons rfl .nil)
  have hknown : (elementDefault point s.references).1 = some (.object ⟨0, point, []⟩) := rfl
  have hproduct : product? [2, 3] = some 6 := by decide
  have hrange : StaysInRange [2, 3] := (product?_eq_some_iff.1 hproduct).1
  obtain ⟨hrefused, hmade⟩ := array_bounds_refused_iff node point bounds [2, 3] 6 s _ hsizes hknown (by decide)
  refine ⟨hsizes, hknown, ?_, ?_⟩
  · cases hfold : (node.foldBounds point bounds 6 s).1 with
    | none => exact absurd (hrefused.1 hfold) (by simp [hrange])
    | some r =>
      obtain ⟨_, a, hform, _, hlengths, hitems⟩ := hmade r hfold
      exact ⟨r, rfl, a, hform, hlengths, hitems⟩
  · exact (array_bounds_refused_iff node point bounds [2, 3] 5 s _ hsizes hknown (by decide)).1.2 (.inl (by decide))

/-- An array without items is folded when the bound of zero comes first, and not when it comes after bounds whose product is
not a length. -/
theorem zero_bound_refused :
    let node : Expr := ⟨.made 0, .array .int 3, .newArray .int .bounds []⟩
    let s : Supplies := ⟨⟨1⟩, ⟨0⟩⟩
    Sizes [.int 0, .long (2 ^ 40), .long (2 ^ 40)] [0, 2 ^ 40, 2 ^ 40] ∧
      Sizes [.long (2 ^ 40), .long (2 ^ 40), .int 0] [2 ^ 40, 2 ^ 40, 0] ∧
        ([2 ^ 40, 2 ^ 40, 0].prod : Nat) ≤ 1024 ∧ (elementDefault .int s.references).1 = some (.int 0) ∧
          (node.foldBounds .int [.int 0, .long (2 ^ 40), .long (2 ^ 40)] 1024 s).1.isSome = true ∧
            (node.foldBounds .int [.long (2 ^ 40), .long (2 ^ 40), .int 0] 1024 s).1 = none := by
  refine ⟨.cons ?_ (.cons ?_ (.cons ?_ .nil)), .cons ?_ (.cons ?_ (.cons ?_ .nil)), ?_, rfl, ?_, ?_⟩ <;> decide

end TypedTree
