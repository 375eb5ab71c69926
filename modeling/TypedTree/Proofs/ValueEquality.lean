import TypedTree.Proofs.Forms
import TypedTree.Value.Equality

/-!
# Structural equality of values

Two values have the same structure when they are of one kind with the same data and their parts, place by place, have the
same structure; `Value.Alike` says so for one layer. Structural equality is symmetric and transitive (`Value.equals_symm`,
`Value.equals_trans`). It is not reflexive, because a NaN differs from itself.

The equality of a switch is symmetric and transitive as well: it is structural equality on values that are no references and
identity on those that are (`Value.Selected`), and structural equality never mixes the two.
-/

namespace TypedTree

/-! ### Doubles and exceptions -/

theorem Double.equals_iff {x y : Double} :
    x.equals y = true ↔ x.isNaN = false ∧ y.isNaN = false ∧ (x = y ∨ x.isZero = true ∧ y.isZero = true) := by
  have hbits : x.bits = y.bits ↔ x = y := ⟨fun h => by cases x; cases y; cases h; rfl, congrArg bits⟩
  simp [equals, and_assoc, hbits]

theorem Double.equals_symm {x y : Double} (h : x.equals y = true) : y.equals x = true := by
  rw [equals_iff] at h ⊢
  exact ⟨h.2.1, h.1, h.2.2.imp Eq.symm And.symm⟩

theorem Double.equals_trans {x y z : Double} (h : x.equals y = true) (h' : y.equals z = true) : x.equals z = true := by
  rw [equals_iff] at h h' ⊢
  obtain ⟨hx, _, hxy⟩ := h
  obtain ⟨_, hz, hyz⟩ := h'
  refine ⟨hx, hz, ?_⟩
  obtain rfl | ⟨hx, hy⟩ := hxy
  · exact hyz
  · obtain rfl | ⟨_, hz⟩ := hyz
    · exact .inr ⟨hx, hy⟩
    · exact .inr ⟨hx, hz⟩

theorem Exception.equals_symm {a b : Exception} (h : a.equals b = true) : b.equals a = true := by
  fun_induction Exception.equals a b with
  | case1 => simp_all [equals]
  | case2 _ _ _ _ _ _ _ _ ih => simp_all [equals]
  | case3 => cases h

theorem Exception.equals_trans {a b c : Exception} (h : a.equals b = true) (h' : b.equals c = true) :
    a.equals c = true := by
  fun_induction Exception.equals a b generalizing c with
  | case1 =>
    obtain ⟨_, _, _, _ | _⟩ := c
    · simp_all [equals]
    · simp [equals] at h'
  | case2 _ _ _ _ _ _ _ _ ih =>
    obtain ⟨_, _, _, _ | _⟩ := c
    · simp [equals] at h'
    · simp_all [equals]
  | case3 => cases h

/-! ### Values -/

namespace Value

/-- The values that a value holds. -/
def parts : Value → List Value
  | .array a => a.items
  | .object o => o.fields.map (·.2)
  | .delegate d => d.targets.filterMap (·.receiver)
  | _ => []

/-- Induction over the values that a value holds. -/
theorem inductionOn {motive : Value → Prop} (value : ∀ v, (∀ c ∈ v.parts, motive c) → motive v) (v : Value) :
    motive v := by
  apply @Value.rec motive (fun a => ∀ c ∈ a.items, motive c) (fun o => ∀ p ∈ o.fields, motive p.2)
    (fun d => ∀ t ∈ d.targets, ∀ c ∈ t.receiver, motive c) (fun vs => ∀ c ∈ vs, motive c)
    (fun fs => ∀ p ∈ fs, motive p.2) (fun ts => ∀ t ∈ ts, ∀ c ∈ t.receiver, motive c) (fun p => motive p.2)
    (fun t => ∀ c ∈ t.receiver, motive c) (fun o => ∀ c ∈ o, motive c)
  all_goals grind [parts]

/-- Two values are of one kind with the same data, and the values they hold are related by `R`. -/
inductive Alike (R : Value → Value → Prop) : Value → Value → Prop where
  | null : Alike R .null .null
  | bool (b : Bool) : Alike R (.bool b) (.bool b)
  | int (i : Int32) : Alike R (.int i) (.int i)
  | long (i : Int64) : Alike R (.long i) (.long i)
  | double {x y : Double} : x.equals y = true → Alike R (.double x) (.double y)
  | char (c : Char) : Alike R (.char c) (.char c)
  | string (s : String) : Alike R (.string s) (.string s)
  | array {i j : Nat} {t : Ty} {ls : List Nat} {xs ys : List Value} : List.Forall₂ R xs ys →
      Alike R (.array ⟨i, t, ls, xs⟩) (.array ⟨j, t, ls, ys⟩)
  | object {i j : Nat} {t : Ty} {fs gs : List (String × Value)} :
      List.Forall₂ (fun p q => p.1 = q.1 ∧ R p.2 q.2) fs gs → Alike R (.object ⟨i, t, fs⟩) (.object ⟨j, t, gs⟩)
  | exception {a b : Exception} : a.equals b = true → Alike R (.exception a) (.exception b)
  | delegate {i j : Nat} {t : Ty} {ss ts : List (Target Value)} :
      List.Forall₂ (fun s t => s.method = t.method ∧ Option.Rel R s.receiver t.receiver) ss ts →
      Alike R (.delegate ⟨i, t, ss⟩) (.delegate ⟨j, t, ts⟩)

theorem equalsList_iff {xs ys : List Value} :
    equalsList xs ys = true ↔ List.Forall₂ (fun x y => x.equals y = true) xs ys := by
  induction xs generalizing ys with
  | nil => cases ys <;> simp [equalsList]
  | cons x xs ih => cases ys <;> simp [equalsList, ih]

theorem equalsFields_iff {fs gs : List (String × Value)} :
    equalsFields fs gs = true ↔ List.Forall₂ (fun p q => p.1 = q.1 ∧ p.2.equals q.2 = true) fs gs := by
  induction fs generalizing gs with
  | nil => cases gs <;> simp [equalsFields]
  | cons f fs ih =>
    obtain ⟨name, x⟩ := f
    cases gs with
    | nil => simp [equalsFields]
    | cons g gs =>
      obtain ⟨name', y⟩ := g
      simp [equalsFields, ih, and_assoc]

theorem equalsOption_iff {x y : Option Value} :
    equalsOption x y = true ↔ Option.Rel (fun x y => x.equals y = true) x y := by
  cases x <;> cases y <;> simp [equalsOption]

theorem equalsTargets_iff {ss ts : List (Target Value)} :
    equalsTargets ss ts = true ↔ List.Forall₂ (fun s t => s.method = t.method ∧
      Option.Rel (fun x y => x.equals y = true) s.receiver t.receiver) ss ts := by
  induction ss generalizing ts with
  | nil => cases ts <;> simp [equalsTargets]
  | cons s ss ih =>
    obtain ⟨method, receiver⟩ := s
    cases ts with
    | nil => simp [equalsTargets]
    | cons t ts =>
      obtain ⟨method', receiver'⟩ := t
      simp [equalsTargets, ih, equalsOption_iff, and_assoc]

theorem equals_iff {x y : Value} : x.equals y = true ↔ Alike (fun x y => x.equals y = true) x y := by
  constructor
  · intro h
    unfold equals at h
    split at h
    · exact .null
    · exact eq_of_beq h ▸ .bool _
    · exact eq_of_beq h ▸ .int _
    · exact eq_of_beq h ▸ .long _
    · exact .double h
    · exact eq_of_beq h ▸ .char _
    · exact eq_of_beq h ▸ .string _
    · simp only [Bool.and_eq_true, beq_iff_eq] at h
      obtain ⟨⟨⟨rfl, rfl⟩, _⟩, h⟩ := h
      exact .array (equalsList_iff.1 h)
    · simp only [Bool.and_eq_true, beq_iff_eq] at h
      obtain ⟨⟨rfl, _⟩, h⟩ := h
      exact .object (equalsFields_iff.1 h)
    · exact .exception h
    · simp only [Bool.and_eq_true, beq_iff_eq] at h
      obtain ⟨⟨rfl, _⟩, h⟩ := h
      exact .delegate (equalsTargets_iff.1 h)
    · cases h
  · intro h
    cases h with
    | array h => simp [equals, equalsList_iff, h, h.length_eq]
    | object h => simp [equals, equalsFields_iff, h, h.length_eq]
    | delegate h => simp [equals, equalsTargets_iff, h, h.length_eq]
    | double h | exception h => simpa [equals] using h
    | _ => simp [equals]

theorem equals_symm {x y : Value} (h : x.equals y = true) : y.equals x = true := by
  induction x using inductionOn generalizing y with
  | value x ih =>
    rw [equals_iff] at h ⊢
    cases h with
    | array h => exact .array (forall₂_imp h fun a ha b hab => ih a ha hab).flip
    | object h =>
      refine .object (forall₂_imp h fun p hp q hpq => ⟨hpq.1.symm, ih p.2 ?_ hpq.2⟩).flip
      exact List.mem_map_of_mem hp
    | delegate h =>
      refine .delegate (forall₂_imp h fun s hs t hst => ⟨hst.1.symm, ?_⟩).flip
      refine optionRel_flip (optionRel_imp hst.2 fun x hx _ => ih x ?_)
      exact List.mem_filterMap.2 ⟨s, hs, Option.mem_toList.1 hx⟩
    | double h => exact .double (Double.equals_symm h)
    | exception h => exact .exception (Exception.equals_symm h)
    | null => exact .null
    | bool b => exact .bool b
    | int i => exact .int i
    | long i => exact .long i
    | char c => exact .char c
    | string s => exact .string s

theorem equals_trans {x y z : Value} (h : x.equals y = true) (h' : y.equals z = true) : x.equals z = true := by
  induction x using inductionOn generalizing y z with
  | value x ih =>
    rw [equals_iff] at h h' ⊢
    cases h with
    | array h =>
      cases h' with
      | array h' => exact .array (forall₂_trans h h' fun a ha _ _ => ih a ha)
    | object h =>
      cases h' with
      | object h' =>
        refine .object (forall₂_trans h h' fun p hp q r hpq hqr => ⟨hpq.1.trans hqr.1, ih p.2 ?_ hpq.2 hqr.2⟩)
        exact List.mem_map_of_mem hp
    | delegate h =>
      cases h' with
      | delegate h' =>
        refine .delegate (forall₂_trans h h' fun s hs t u hst htu => ⟨hst.1.trans htu.1, ?_⟩)
        exact optionRel_trans hst.2 htu.2 fun x hx _ _ => ih x (List.mem_filterMap.2 ⟨s, hs, hx⟩)
    | double h => cases h' with | double h' => exact .double (Double.equals_trans h h')
    | exception h => cases h' with | exception h' => exact .exception (Exception.equals_trans h h')
    | _ => exact h'

/-! ### The equality of a switch -/

/-- The value has an identity. -/
def isReference : Value → Bool
  | .array _ | .object _ | .exception _ | .delegate _ => true
  | _ => false

/-- Two values are the same reference, or no references and structurally equal. -/
inductive Selected : Value → Value → Prop where
  | array {a b : ArrayOf Value} : a.id = b.id → Selected (.array a) (.array b)
  | object {a b : ObjectOf Value} : a.id = b.id → Selected (.object a) (.object b)
  | exception {a b : Exception} : a.id = b.id → Selected (.exception a) (.exception b)
  | delegate {a b : DelegateOf Value} : a.id = b.id → Selected (.delegate a) (.delegate b)
  | structural {x y : Value} : x.isReference = false → x.equals y = true → Selected x y

theorem isReference_of_equals {x y : Value} (h : x.equals y = true) : x.isReference = y.isReference := by
  rw [equals_iff] at h
  cases h <;> rfl

theorem defaultEquals_iff {x y : Value} : x.defaultEquals y = true ↔ Selected x y := by
  constructor
  · intro h
    unfold defaultEquals at h
    split at h
    · exact .array (eq_of_beq h)
    · exact .object (eq_of_beq h)
    · exact .exception (eq_of_beq h)
    · exact .delegate (eq_of_beq h)
    · next harray hobject hexception hdelegate =>
      refine .structural ?_ h
      rw [equals_iff] at h
      cases h with
      | array => exact absurd rfl (harray _ _ rfl)
      | object => exact absurd rfl (hobject _ _ rfl)
      | exception => exact absurd rfl (hexception _ _ rfl)
      | delegate => exact absurd rfl (hdelegate _ _ rfl)
      | _ => rfl
  · intro h
    cases h with
    | array h | object h | exception h | delegate h => simpa [defaultEquals] using h
    | structural hx h =>
      unfold defaultEquals
      split
      · cases hx
      · cases hx
      · cases hx
      · cases hx
      · exact h

theorem defaultEquals_symm {x y : Value} (h : x.defaultEquals y = true) : y.defaultEquals x = true := by
  rw [defaultEquals_iff] at h ⊢
  cases h with
  | array h => exact .array h.symm
  | object h => exact .object h.symm
  | exception h => exact .exception h.symm
  | delegate h => exact .delegate h.symm
  | structural hx h => exact .structural (isReference_of_equals h ▸ hx) (equals_symm h)

theorem defaultEquals_trans {x y z : Value} (h : x.defaultEquals y = true) (h' : y.defaultEquals z = true) :
    x.defaultEquals z = true := by
  rw [defaultEquals_iff] at h h' ⊢
  cases h with
  | array h =>
    cases h' with
    | array h' => exact .array (h.trans h')
    | structural hy => cases hy
  | object h =>
    cases h' with
    | object h' => exact .object (h.trans h')
    | structural hy => cases hy
  | exception h =>
    cases h' with
    | exception h' => exact .exception (h.trans h')
    | structural hy => cases hy
  | delegate h =>
    cases h' with
    | delegate h' => exact .delegate (h.trans h')
    | structural hy => cases hy
  | structural hx h =>
    have hy := isReference_of_equals h ▸ hx
    cases h' with
    | structural _ h' => exact .structural hx (equals_trans h h')
    | _ => cases hy

end Value

end TypedTree
