import TypedTree.Optimize.Pass
import TypedTree.Proofs.Defaults

/-!
# Constants under wider types

A constant whose value fits its type stays a constant when it is given a wider type, whether it is retyped or stands below a
conversion that is folded. Both ask whether the value fits the wider type (`Expr.retype_of_fits`,
`Optimizer.rule_convert_constant`), and it does unless an array among the bases of its exact type is in the way
(`Value.isCompatible_iff_not_blocked`). So it always does when the exact type has classes for bases, and
`array_base_not_upcast` is an instance of a class with an array for a base, of which a conversion is left.
-/

namespace TypedTree

/-! ### Retyping constants -/

namespace Expr

variable {ty : Ty} {c : Expr} {v : Value}

theorem retype_self (e : Expr) : e.retype e.ty = pure e := by
  rw [retype_eq, if_pos (beq_self_eq_true e.ty)]

/-- A value that fits stays a constant. -/
theorem retype_of_fits (hc : c.form = .constant v) (hfits : v.isCompatible ty = true) (s : Supply .node) :
    ∃ r s', c.retype ty s = .ok (r, s') ∧ r.ty = ty ∧ r.form = .constant v := by
  by_cases hty : c.ty = ty
  · subst hty
    exact ⟨c, s, by rw [retype_self]; rfl, rfl, hc⟩
  · obtain ⟨hform, hmade⟩ := constant_run v ty s
    refine ⟨(constant v ty s).1, (constant v ty s).2, ?_, hmade, hform⟩
    rw [retype_constant hty hc, if_pos hfits]
    rfl

/-- A value that does not fit a wider type is converted. -/
theorem retype_of_misfit (hc : c.form = .constant v) (hsource : v.isCompatible c.ty = true)
    (hmisfit : v.isCompatible ty = false) (hwider : ty.assignableFrom c.ty = true) (hvoid : ty ≠ .void) (hcvoid : c.ty ≠ .void)
    (s : Supply .node) : ∃ r s', c.retype ty s = .ok (r, s') ∧ r.ty = ty ∧ r.form = .convert c := by
  have hty : c.ty ≠ ty := by
    rintro rfl
    rw [hsource] at hmisfit
    cases hmisfit
  refine ⟨(convert c ty s).1, (convert c ty s).2, ?_, rfl, rfl⟩
  rw [retype_constant hty hc, hmisfit, if_neg Bool.false_ne_true, coerce_eq c hvoid,
    if_pos (by simp [isConvertible, hcvoid, hwider])]
  rfl

end Expr

/-! ### Folding conversions -/

/-- A conversion of a constant is folded exactly when the value fits. -/
theorem Optimizer.rule_convert_constant {σ κ : Type} {o : Optimizer σ κ} {catalog : Catalog} (hfacts : o.facts = catalog.facts)
    (hfolding : o.settings.folding = true) (again : Expr → Context → Run σ Expr) (cx : Context) {n c : Expr} {v : Value}
    (hn : n.form = .convert c) (hc : c.form = .constant v) :
    o.rule again n cx =
      if v.isCompatible n.ty then do foldTo n (some (← Expr.constant v n.ty)) else pure n := by
  have hthrow : o.facts.alwaysThrows c = false := by simp [hfacts, Catalog.facts, Expr.isThrow, hc]
  have hvalue : o.facts.constantValue? c = some v := by simp [hfacts, Catalog.facts, Expr.constantValue?, hc]
  simp only [rule, hn, convert, hthrow, hfolding, hvalue, if_true, if_false, Bool.false_eq_true]

/-- A constant that is folded to is made and counted. -/
theorem Optimizer.foldTo_constant {σ : Type} (n : Expr) (v : Value) (ty : Ty) (s : Progress σ) :
    ∃ r s', (do foldTo n (some (← Expr.constant v ty)) : Run σ Expr) s = .ok r s' ∧ r.ty = ty ∧ r.form = .constant v ∧
      s'.tally = s.tally.record .folded := by
  obtain ⟨hform, hty⟩ := Expr.constant_run v ty s.nodes
  have hthrow : (Expr.constant v ty s.nodes).1.isThrow = false := by rw [Expr.isThrow, hform]
  refine ⟨(Expr.constant v ty s.nodes).1,
    { s with nodes := (Expr.constant v ty s.nodes).2, tally := s.tally.record .folded }, ?_, hty, hform, rfl⟩
  change (do recordFold (Expr.constant v ty s.nodes).1; return (Expr.constant v ty s.nodes).1 : Run σ Expr)
    { s with nodes := (Expr.constant v ty s.nodes).2 } = _
  rw [recordFold, hthrow]
  rfl

/-! ### Wider types -/

/-- **Upcasts**: a value that fits a type whose bases are classes fits every wider type, unless the wider type is an array of
wider elements and an array among the bases of its exact type is in the way. So a constant of the one type stays a constant of
its value when it is retyped to the other one or when its conversion is folded. Otherwise a conversion is made, or left. -/
theorem constant_fits_wider_iff {σ κ : Type} (v : Value) (source target : Ty) (bases : source.hasClassBases = true)
    (valued : v.runtimeType? ≠ some .void) (fits : v.isCompatible source = true)
    (wider : target.assignableFrom source = true) :
    (v.isCompatible target = true ↔ ¬ v.Blocked target source) ∧
      (∀ (c : Expr) (s : Supply .node), c.form = .constant v → c.ty = source →
        ∃ r s', c.retype target s = .ok (r, s') ∧ r.ty = target ∧
          (¬ v.Blocked target source → r.form = .constant v) ∧ (v.Blocked target source → r.form = .convert c)) ∧
      ∀ (catalog : Catalog) (evaluators : Evaluators σ κ) (hooks : Hooks σ) (settings : Settings)
        (again : Expr → Context → Run σ Expr) (cx : Context) (n c : Expr) (s : Progress σ),
        settings.folding = true → n.form = .convert c → n.ty = target → c.form = .constant v → c.ty = source →
        ∃ r s', (⟨catalog.facts, evaluators, hooks, settings⟩ : Optimizer σ κ).rule again n cx s = .ok r s' ∧ r.ty = target ∧
          (¬ v.Blocked target source → r.form = .constant v ∧ s'.tally = s.tally.record .folded) ∧
          (v.Blocked target source → r = n) := by
  have hwider := Ty.assignableFrom_iff.1 wider
  have hfits := Value.isCompatible_iff_not_blocked valued bases fits hwider
  have hmisfit : v.Blocked target source → v.isCompatible target = false := fun hblocked =>
    Bool.eq_false_iff.2 fun h => hfits.1 h hblocked
  refine ⟨hfits, fun c s hc hcty => ?_, fun catalog evaluators hooks settings again cx n c s hfold hn hnty hc hcty => ?_⟩
  · by_cases hblocked : v.Blocked target source
    · have hvoid : target ≠ .void ∧ source ≠ .void := by
        obtain ⟨_, _, hblocked⟩ := hblocked
        cases hblocked <;> exact ⟨by simp, by simp⟩
      subst hcty
      obtain ⟨r, s', hr, hty, hform⟩ := Expr.retype_of_misfit hc fits (hmisfit hblocked) wider hvoid.1 hvoid.2 s
      exact ⟨r, s', hr, hty, fun h => absurd hblocked h, fun _ => hform⟩
    · obtain ⟨r, s', hr, hty, hform⟩ := Expr.retype_of_fits hc (hfits.2 hblocked) s
      exact ⟨r, s', hr, hty, fun _ => hform, fun h => absurd h hblocked⟩
  · rw [Optimizer.rule_convert_constant rfl hfold again cx hn hc, hnty]
    by_cases hblocked : v.Blocked target source
    · rw [hmisfit hblocked]
      exact ⟨n, s, rfl, hnty, fun h => absurd hblocked h, fun _ => rfl⟩
    · rw [if_pos (hfits.2 hblocked)]
      obtain ⟨r, s', hr, hty, hform, htally⟩ := Optimizer.foldTo_constant n v target s
      exact ⟨r, s', hr, hty, fun _ => ⟨hform, htally⟩, fun h => absurd h hblocked⟩

/-- An array of squares that is declared as one of polygons stays a constant as an array of shapes. -/
theorem constant_fits_wider_iff_squares :
    let v : Value := .array ⟨0, Ty.square, [1], [.object ⟨1, Ty.square, []⟩]⟩
    let c : Expr := ⟨.made 0, .array Ty.polygon 1, .constant v⟩
    (Ty.array Ty.polygon 1).hasClassBases = true ∧ v.isCompatible (.array Ty.polygon 1) = true ∧
      (Ty.array Ty.shape 1).assignableFrom (.array Ty.polygon 1) = true ∧ v.isCompatible (.array Ty.shape 1) = true ∧
        ∃ r s', c.retype (.array Ty.shape 1) ⟨1⟩ = .ok (r, s') ∧ r.ty = .array Ty.shape 1 ∧ r.form = .constant v := by
  intro v c
  have hbases : (Ty.array Ty.polygon 1).hasClassBases = true := by decide
  have hfits : v.isCompatible (.array Ty.polygon 1) = true := by decide
  have hwider : (Ty.array Ty.shape 1).assignableFrom (.array Ty.polygon 1) = true := by decide
  obtain ⟨hiff, hretype, _⟩ := constant_fits_wider_iff (σ := Unit) (κ := Unit) v (.array Ty.polygon 1) (.array Ty.shape 1) hbases
    (by decide) hfits hwider
  have hfree : ¬ v.Blocked (.array Ty.shape 1) (.array Ty.polygon 1) := by
    rintro ⟨exact, hexact, hblocked⟩
    cases hexact
    cases hblocked.hasClassBases
  obtain ⟨r, s', hr, hty, hform, _⟩ := hretype c ⟨1⟩ rfl rfl
  exact ⟨hbases, hfits, hwider, hiff.2 hfree, r, s', hr, hty, hform hfree⟩

/-- An instance of a class with an array of texts for a base fits an array of texts, and no array of objects: retyping makes a
conversion of the constant. -/
theorem array_base_not_upcast :
    let texts : Ty := .named { Ty.declare "Texts" .classKind with base := some (.array .string 1) }
    let v : Value := .object ⟨0, texts, []⟩
    let c : Expr := ⟨.made 0, .array .string 1, .constant v⟩
    (Ty.array .string 1).hasClassBases = true ∧ (Ty.array .object 1).hasClassBases = true ∧ v.runtimeType? ≠ some .void ∧
      v.isCompatible (.array .string 1) = true ∧ (Ty.array .object 1).assignableFrom (.array .string 1) = true ∧
        v.isCompatible (.array .object 1) = false ∧
          ∃ r s', c.retype (.array .object 1) ⟨1⟩ = .ok (r, s') ∧ r.form = .convert c := by
  intro texts v c
  have hfits : v.isCompatible (.array .string 1) = true := by decide
  have hmisfit : v.isCompatible (.array .object 1) = false := by decide
  obtain ⟨r, s', hr, _, hform⟩ := Expr.retype_of_misfit (c := c) rfl hfits hmisfit (by decide) (by decide) (by decide) ⟨1⟩
  exact ⟨by decide, by decide, by decide, hfits, by decide, hmisfit, r, s', hr, hform⟩

end TypedTree
