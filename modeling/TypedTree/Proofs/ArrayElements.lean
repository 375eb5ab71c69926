import Mathlib.Data.Set.Function
import TypedTree.Proofs.ArrayBounds

/-!
# Elements of arrays

An array holds its items in rows, the last index varying fastest. `rowMajor` is the number of items before the one at given
indices, and `indicesAt` finds the indices back, so the indices in range and the positions of items are in one-to-one
correspondence (`rowMajor_bijOn`). `ArrayOf.position` computes the position from the left. After each step it lies below the
product of the lengths passed (`position_lt`), which is why it stays in the range of positions when those products do.

So a read of a well-formed array has an item exactly when its indices are in range, and the array that folding makes from bounds
is well-formed and has the default of its elements everywhere (`array_reads_row_major`).
-/

namespace TypedTree

namespace ArrayOf

/-! ### Positions -/

/-- There is one index for each dimension, and it lies below the length of that dimension. -/
def InRange (indices : List Int) (lengths : List Nat) : Prop :=
  List.Forall₂ (fun (index : Int) (length : Nat) => 0 ≤ index ∧ index < length) indices lengths

/-- The number of items before the one at the indices. -/
def rowMajor : List Int → List Nat → Nat
  | index :: indices, _ :: lengths => index.toNat * lengths.prod + rowMajor indices lengths
  | _, _ => 0

/-- The indices of the item with that many items before it. -/
def indicesAt : List Nat → Nat → List Int
  | [], _ => []
  | _ :: lengths, k => ((k / lengths.prod : Nat) : Int) :: indicesAt lengths (k % lengths.prod)

variable {indices : List Int} {lengths : List Nat} {k : Nat}

theorem rowMajor_lt (h : InRange indices lengths) : rowMajor indices lengths < lengths.prod := by
  induction h with
  | nil => decide
  | @cons index length indices lengths hindex _ ih =>
    have hrow : (index.toNat + 1) * lengths.prod ≤ length * lengths.prod := Nat.mul_le_mul_right _ (by omega)
    rw [Nat.add_mul, Nat.one_mul] at hrow
    simp only [rowMajor, List.prod_cons]
    omega

theorem indicesAt_rowMajor (h : InRange indices lengths) : indicesAt lengths (rowMajor indices lengths) = indices := by
  induction h with
  | nil => rfl
  | @cons index length indices lengths hindex hrest ih =>
    have hlt := rowMajor_lt hrest
    simp only [rowMajor, indicesAt, Nat.mul_comm index.toNat, Nat.mul_add_mod, Nat.mul_add_div (Nat.zero_lt_of_lt hlt),
      Nat.div_eq_of_lt hlt, Nat.mod_eq_of_lt hlt, ih, Nat.add_zero, Int.toNat_of_nonneg hindex.1]

theorem inRange_indicesAt (h : k < lengths.prod) : InRange (indicesAt lengths k) lengths := by
  induction lengths generalizing k with
  | nil => exact .nil
  | cons length lengths ih =>
    rw [List.prod_cons] at h
    have hrow : 0 < lengths.prod := Nat.pos_of_mul_pos_left (Nat.zero_lt_of_lt h)
    have hindex : k / lengths.prod < length := (Nat.div_lt_iff_lt_mul hrow).2 h
    exact .cons ⟨Int.natCast_nonneg _, Int.ofNat_lt.2 hindex⟩ (ih (Nat.mod_lt k hrow))

theorem rowMajor_indicesAt (h : k < lengths.prod) : rowMajor (indicesAt lengths k) lengths = k := by
  induction lengths generalizing k with
  | nil =>
    rw [List.prod_nil] at h
    exact (Nat.lt_one_iff.1 h).symm
  | cons length lengths ih =>
    rw [List.prod_cons] at h
    have hrow : 0 < lengths.prod := Nat.pos_of_mul_pos_left (Nat.zero_lt_of_lt h)
    simp only [indicesAt, rowMajor, Int.toNat_natCast, ih (Nat.mod_lt k hrow)]
    exact Nat.div_add_mod' k lengths.prod

theorem rowMajor_bijOn (lengths : List Nat) :
    Set.BijOn (rowMajor · lengths) {indices | InRange indices lengths} {k | k < lengths.prod} := by
  have hinverse : Set.InvOn (indicesAt lengths) (rowMajor · lengths) {indices | InRange indices lengths}
      {k | k < lengths.prod} :=
    ⟨fun _ => indicesAt_rowMajor, fun _ => rowMajor_indicesAt⟩
  exact hinverse.bijOn (fun _ => rowMajor_lt) fun _ => inRange_indicesAt

/-! ### Computing positions -/

/-- The position is known exactly for indices in range. It goes on from the items passed before, one row for each of them. -/
theorem position_eq_some_iff {offset : Nat} (hlength : indices.length = lengths.length) :
    position offset (indices.zip lengths) = some k ↔
      InRange indices lengths ∧ k = offset * lengths.prod + rowMajor indices lengths := by
  induction indices generalizing offset lengths with
  | nil =>
    cases lengths with
    | nil => simp [position, InRange, rowMajor, eq_comm]
    | cons length lengths => cases hlength
  | cons index indices ih =>
    cases lengths with
    | nil => cases hlength
    | cons length lengths =>
      simp only [List.zip_cons_cons, position]
      by_cases hindex : 0 ≤ index ∧ index < length
      · rw [if_pos hindex, ih (by simpa using hlength)]
        simp only [InRange, List.forall₂_cons, hindex, true_and, rowMajor, List.prod_cons, Nat.add_mul, Nat.mul_assoc,
          Nat.add_assoc]
      · simp [hindex, InRange]

theorem position_lt {offset passed : Nat} {steps : List (Int × Nat)} (h : position offset steps = some k)
    (hoffset : offset < passed) : k < passed * (steps.map Prod.snd).prod := by
  induction steps generalizing offset passed with
  | nil =>
    cases h
    simpa using hoffset
  | cons step steps ih =>
    obtain ⟨index, length⟩ := step
    simp only [position] at h
    split at h
    · next hindex =>
      have hrow : (offset + 1) * length ≤ passed * length := Nat.mul_le_mul_right _ hoffset
      rw [Nat.add_mul, Nat.one_mul] at hrow
      have hnext : offset * length + index.toNat < passed * length := by omega
      simpa [Nat.mul_assoc] using ih h hnext
    · cases h

/-! ### Reads -/

/-- The array has an item for each list of indices in range, and the positions of its items are in the range of positions. -/
structure WellFormed {ν : Type} (a : ArrayOf ν) : Prop where
  items_length : a.items.length = a.lengths.prod
  stays : StaysInRange a.lengths

variable {ν : Type} {a : ArrayOf ν}

theorem get?_of_inRange (h : InRange indices a.lengths) : a.get? indices = a.items[rowMajor indices a.lengths]? := by
  have hposition : position 0 (indices.zip a.lengths) = some (0 * a.lengths.prod + rowMajor indices a.lengths) :=
    (position_eq_some_iff h.length_eq).2 ⟨h, rfl⟩
  rw [get?, if_pos h.length_eq, hposition, Nat.zero_mul, Nat.zero_add, Option.bind_some]

theorem get?_of_not_inRange (h : ¬ InRange indices a.lengths) : a.get? indices = none := by
  unfold get?
  split
  · next hlength =>
    cases hposition : position 0 (indices.zip a.lengths) with
    | none => rfl
    | some k => exact absurd ((position_eq_some_iff hlength).1 hposition).1 h
  · rfl

namespace WellFormed

theorem exists_item (ha : a.WellFormed) (h : InRange indices a.lengths) :
    ∃ item, a.items[rowMajor indices a.lengths]? = some item := by
  have hlt := rowMajor_lt h
  rw [← ha.items_length] at hlt
  exact ⟨_, List.getElem?_eq_getElem hlt⟩

theorem isSome_get?_iff (ha : a.WellFormed) : (a.get? indices).isSome = true ↔ InRange indices a.lengths := by
  by_cases h : InRange indices a.lengths
  · obtain ⟨item, hitem⟩ := ha.exists_item h
    simp [get?_of_inRange h, hitem, h]
  · simp [get?_of_not_inRange h, h]

/-- The step to the next index stays in the range, since the position does not reach the product of the lengths passed. -/
theorem step_lt (ha : a.WellFormed) {passed rest : List (Int × Nat)} {index : Int} {length offset : Nat}
    (hlength : indices.length = a.lengths.length) (hsteps : indices.zip a.lengths = passed ++ (index, length) :: rest)
    (hoffset : position 0 passed = some offset) (hindex : 0 ≤ index ∧ index < length) :
    offset * length + index.toNat < wordSize := by
  have hprefix : passed.map Prod.snd ++ [length] <+: a.lengths := by
    rw [← List.map_snd_zip hlength.ge, hsteps]
    exact ⟨rest.map Prod.snd, by simp⟩
  have hlt := position_lt hoffset Nat.one_pos
  have hrow : (offset + 1) * length ≤ (passed.map Prod.snd).prod * length := Nat.mul_le_mul_right _ (by omega)
  have hrange := ha.stays _ hprefix
  rw [List.prod_append, List.prod_singleton] at hrange
  rw [Nat.add_mul, Nat.one_mul] at hrow
  omega

end WellFormed

end ArrayOf

/-! ### Folding -/

/-- The values are the integers, of either width. -/
def Integers (values : List Value) (integers : List Int) : Prop :=
  List.Forall₂ (fun v i => v.integer? = some i) values integers

theorem Integers.mapM {values : List Value} {integers : List Int} (h : Integers values integers) :
    values.mapM Value.integer? = some integers := by
  induction h with
  | nil => rfl
  | cons hv _ ih => simp [hv, ih]

namespace Expr

open ArrayOf

variable (node : Expr) {a : ArrayOf Value} {values : List Value} {indices : List Int} (s : Supplies)

theorem foldElement_of_inRange (hvalues : Integers values indices) (h : InRange indices a.lengths) {item : Value}
    (hitem : a.items[rowMajor indices a.lengths]? = some item) :
    ∃ r s', node.foldElement (.array a) values s = (some r, s') ∧ r.ty = node.ty ∧ r.form = .constant item := by
  have hlength : values.length = a.lengths.length := hvalues.length_eq.trans h.length_eq
  simp only [foldElement, hlength, if_true, hvalues.mapM, get?_of_inRange h, hitem]
  exact ⟨_, _, rfl, (constant_run item node.ty s.nodes).2, (constant_run item node.ty s.nodes).1⟩

theorem foldElement_of_not_inRange (hvalues : Integers values indices) (hlength : indices.length = a.lengths.length)
    (h : ¬ InRange indices a.lengths) :
    ∃ r s', node.foldElement (.array a) values s = (some r, s') ∧ r.ty = node.ty ∧
      r.Raises ⟨s.references.next, .indexOutOfRange, "Index was outside the bounds of the array.", none⟩ := by
  have hlength : values.length = a.lengths.length := hvalues.length_eq.trans hlength
  simp only [foldElement, hlength, if_true, hvalues.mapM, get?_of_not_inRange h]
  exact ⟨_, _, rfl, rfl, _, rfl, rfl, rfl⟩

/-- An array that is made from bounds is well-formed, and has the default of its elements everywhere. -/
theorem wellFormed_of_foldBounds {element : Ty} {bounds : List Value} {limit : Nat} {s : Supplies} {r : Expr}
    (h : (node.foldBounds element bounds limit s).1 = some r) (hform : r.form = .constant (.array a)) :
    a.WellFormed ∧ ∀ (k : Nat) item, a.items[k]? = some item → (elementDefault element s.references).1 = some item := by
  obtain ⟨hrange, default, hitems, hdefault⟩ := foldBounds_array node h hform
  refine ⟨⟨by rw [hitems, List.length_replicate], hrange⟩, fun k item hitem => ?_⟩
  rw [hitems, List.getElem?_replicate] at hitem
  split at hitem
  · next hk =>
    cases hitem
    exact hdefault (Nat.ne_of_gt (Nat.zero_lt_of_lt hk))
  · cases hitem

end Expr

open ArrayOf

/-- Reading a well-formed array finds an item exactly for indices in range, the one at their row-major position; no step to
that position leaves the range of positions; and the indices in range and the positions of items correspond. So folding a
read gives that item, or the throw of an index out of range. An array that folding makes from bounds is well-formed, and each
read in range gives the default of its elements. -/
theorem array_reads_row_major :
    (∀ a : ArrayOf Value, a.WellFormed →
      (∀ indices, (a.get? indices).isSome = true ↔ InRange indices a.lengths) ∧
      (∀ indices, InRange indices a.lengths → a.get? indices = a.items[rowMajor indices a.lengths]?) ∧
      (∀ (indices : List Int) passed (index : Int) (length : Nat) rest offset, indices.length = a.lengths.length →
        indices.zip a.lengths = passed ++ (index, length) :: rest → position 0 passed = some offset →
          0 ≤ index ∧ index < length → offset * length + index.toNat < wordSize) ∧
      Set.BijOn (rowMajor · a.lengths) {indices | InRange indices a.lengths} {k | k < a.items.length} ∧
      ∀ (node : Expr) values indices s, Integers values indices → indices.length = a.lengths.length →
        ∃ r s', node.foldElement (.array a) values s = (some r, s') ∧ r.ty = node.ty ∧
          (InRange indices a.lengths → ∃ item, a.items[rowMajor indices a.lengths]? = some item ∧ r.form = .constant item) ∧
          (¬ InRange indices a.lengths →
            r.Raises ⟨s.references.next, .indexOutOfRange, "Index was outside the bounds of the array.", none⟩)) ∧
    ∀ (maker : Expr) element bounds limit made c a, (maker.foldBounds element bounds limit made).1 = some c →
      c.form = .constant (.array a) → a.WellFormed ∧
        ∀ (node : Expr) values indices s, Integers values indices → InRange indices a.lengths →
          ∃ item r s', (elementDefault element made.references).1 = some item ∧ a.get? indices = some item ∧
            node.foldElement (.array a) values s = (some r, s') ∧ r.ty = node.ty ∧ r.form = .constant item := by
  refine ⟨fun a ha => ⟨fun _ => ha.isSome_get?_iff, fun _ => get?_of_inRange, fun _ _ _ _ _ _ => ha.step_lt, ?_, ?_⟩, ?_⟩
  · rw [ha.items_length]
    exact rowMajor_bijOn a.lengths
  · intro node values indices s hvalues hlength
    by_cases h : InRange indices a.lengths
    · obtain ⟨item, hitem⟩ := ha.exists_item h
      obtain ⟨r, s', hrun, hty, hform⟩ := node.foldElement_of_inRange s hvalues h hitem
      exact ⟨r, s', hrun, hty, fun _ => ⟨item, hitem, hform⟩, absurd h⟩
    · obtain ⟨r, s', hrun, hty, hraises⟩ := node.foldElement_of_not_inRange s hvalues hlength h
      exact ⟨r, s', hrun, hty, fun hin => absurd hin h, fun _ => hraises⟩
  · intro maker element bounds limit made c a hmade hc
    obtain ⟨ha, hdefault⟩ := maker.wellFormed_of_foldBounds hmade hc
    refine ⟨ha, fun node values indices s hvalues h => ?_⟩
    obtain ⟨item, hitem⟩ := ha.exists_item h
    obtain ⟨r, s', hrun, hty, hform⟩ := node.foldElement_of_inRange s hvalues h hitem
    exact ⟨item, r, s', hdefault _ _ hitem, by rw [get?_of_inRange h, hitem], hrun, hty, hform⟩

/-- In two rows of three texts, the last index of the second row reaches the sixth text, and the third row does not exist. -/
theorem array_reads_row_major_sixTexts :
    let a : ArrayOf Value := ⟨0, .string, [2, 3], ["a", "b", "c", "d", "e", "f"].map .string⟩
    let node : Expr := ⟨.made 0, .string, .index ⟨.made 1, a.ty, .constant (.array a)⟩ none [] false⟩
    let s : Supplies := ⟨⟨2⟩, ⟨1⟩⟩
    a.WellFormed ∧ rowMajor [1, 2] [2, 3] = 5 ∧
      (∃ r s', node.foldElement (.array a) [.int 1, .long 2] s = (some r, s') ∧ r.ty = .string ∧
        r.form = .constant (.string "f")) ∧
      ∃ r s', node.foldElement (.array a) [.long 2, .int 0] s = (some r, s') ∧ r.ty = .string ∧
        r.Raises ⟨1, .indexOutOfRange, "Index was outside the bounds of the array.", none⟩ := by
  intro a node s
  have hproduct : product? [2, 3] = some 6 := by decide
  have ha : a.WellFormed := ⟨rfl, (product?_eq_some_iff.1 hproduct).1⟩
  have hreads := (array_reads_row_major.1 a ha).2.2.2.2 node
  refine ⟨ha, by decide, ?_, ?_⟩
  · obtain ⟨r, s', hrun, hty, hin, _⟩ := hreads [.int 1, .long 2] [1, 2] s (.cons rfl (.cons rfl .nil)) rfl
    obtain ⟨item, hitem, hform⟩ := hin (.cons (by decide) (.cons (by decide) .nil))
    cases hitem
    exact ⟨r, s', hrun, hty, hform⟩
  · obtain ⟨r, s', hrun, hty, _, hout⟩ := hreads [.long 2, .int 0] [2, 0] s (.cons rfl (.cons rfl .nil)) rfl
    refine ⟨r, s', hrun, hty, hout fun h => ?_⟩
    cases h with
    | cons hindex _ => exact absurd hindex.2 (by decide)

end TypedTree
