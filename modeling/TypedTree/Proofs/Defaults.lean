import TypedTree.Proofs.Assignability
import TypedTree.Proofs.Substitution
import TypedTree.Proofs.ValueEquality
import TypedTree.Facts.Structural

/-!
# Retyping defaults

A default stands for a value when the value an uninitialised location of its type holds is known. That is null for a type
with nulls, and otherwise a value whose exact type it is (`Ty.defaultValue?_cases`). So two types share a default value only
when both have nulls, and only then a default is made again under the other type.

Hence a default can be retyped exactly when the constant of its value can (`default_retyped_like_value`), and the results
have the same known value, with one exception: a constant that is not null may fit another type, where the default is
converted and its value is not known any more (`lifted_default_unknown`).
-/

namespace TypedTree

/-! ### Default values -/

theorem Exception.ty_of_equals {a b : Exception} (h : a.equals b = true) : a.ty = b.ty := by
  fun_cases Exception.equals a b <;> simp_all [equals]

/-- Values of the same structure have the same exact type. -/
theorem Value.runtimeType?_of_equals {v w : Value} (h : v.equals w = true) : v.runtimeType? = w.runtimeType? := by
  rw [equals_iff] at h
  cases h with
  | exception h => simp only [runtimeType?, Exception.ty_of_equals h]
  | _ => rfl

namespace Ty

variable {s t : Ty} {v : Value}

/-- A known default is null, or it is of the type exactly. -/
theorem defaultValue?_cases (h : t.defaultValue? = some v) :
    v = .null ∧ t.admitsNull = true ∨ v.runtimeType? = some t := by
  unfold defaultValue? at h
  split at h
  iterate 5
    · cases h
      exact .inr rfl
  · split at h
    · next hnull =>
      cases h
      exact .inl ⟨rfl, hnull⟩
    · cases h

theorem defaultValue?_of_admitsNull (h : t.admitsNull = true) : t.defaultValue? = some .null := by
  unfold defaultValue?
  split
  iterate 5
    · cases h
  · rw [if_pos h]

/-- Exactly the types with nulls have the default null. -/
theorem equalsOption_null : Value.equalsOption (some .null) t.defaultValue? = t.admitsNull := by
  rw [Bool.eq_iff_iff, Value.equalsOption_iff]
  constructor
  · intro h
    cases hw : t.defaultValue? with
    | none => rw [hw] at h; cases h
    | some w =>
      rw [hw, Option.rel_some_some] at h
      rcases defaultValue?_cases hw with ⟨_, hnull⟩ | hexact
      · exact hnull
      · cases (Value.runtimeType?_of_equals h).trans hexact
  · intro h
    rw [defaultValue?_of_admitsNull h]
    exact .some (Value.equals_iff.2 .null)

/-- Two types do not share a default that is not null. -/
theorem equalsOption_exact (hv : v.runtimeType? = some s) (hne : t ≠ s) :
    Value.equalsOption (some v) t.defaultValue? = false := by
  rw [Bool.eq_false_iff, ne_eq, Value.equalsOption_iff]
  intro h
  cases hw : t.defaultValue? with
  | none => rw [hw] at h; cases h
  | some w =>
    rw [hw, Option.rel_some_some] at h
    have hty : w.runtimeType? = some s := (Value.runtimeType?_of_equals h).symm.trans hv
    rcases defaultValue?_cases hw with ⟨rfl, _⟩ | hexact
    · cases hty
    · exact hne (Option.some.inj (hexact.symm.trans hty))

end Ty

/-! ### Retyping constants, defaults and references -/

namespace Expr

variable {ty : Ty} {e : Expr}

/-- A value of the one type can be converted to the other one: the types are related. -/
def isConvertible (source target : Ty) : Bool :=
  source != .void && (source.underlying == target.underlying || target.assignableFrom source || source.assignableFrom target)

/-- A value is converted when the types are related, and there is a fault when they are not. -/
theorem coerce_eq (e : Expr) (hvoid : ty ≠ .void) :
    e.coerce ty = if isConvertible e.ty ty then liftM (convert e ty) else throwThe Fault (.coercion e.ty ty) := by
  rw [coerce, if_neg (by simpa using hvoid)]
  rfl

theorem coerce_isOk (e : Expr) (hvoid : ty ≠ .void) (s : Supply .node) :
    (e.coerce ty s).isOk = isConvertible e.ty ty := by
  rw [coerce_eq e hvoid]
  cases isConvertible e.ty ty <;> rfl

theorem coerce_convert {r : Expr} {s s' : Supply .node} (hvoid : ty ≠ .void) (h : e.coerce ty s = .ok (r, s')) :
    r.form = .convert e := by
  rw [coerce_eq e hvoid] at h
  split at h
  · cases h
    rfl
  · cases h

/-- A value that fits a type can be converted to it from its exact type. -/
theorem isConvertible_of_isCompatible {v : Value} {source : Ty} (hv : v.runtimeType? = some source)
    (hsource : source.defaultValue? = some v) (h : v.isCompatible ty = true) : isConvertible source ty = true := by
  have hvoid : source ≠ .void := by
    rintro rfl
    cases hsource
  rcases (Value.isCompatible_of_runtimeType hv).1 h with h | h
  · simp [isConvertible, hvoid, Ty.assignableFrom_iff.2 h]
  · have hplain : source.underlying = source := by
      cases source with
      | nullable => cases hsource; cases hv
      | _ => rfl
    simp [isConvertible, hvoid, hplain, h]

theorem retype_constant (hty : e.ty ≠ ty) {v : Value} (he : e.form = .constant v) :
    e.retype ty = if v.isCompatible ty then liftM (constant v ty) else e.coerce ty := by
  rw [retype_eq, if_neg (by simpa using hty), he]

theorem retype_default (hty : e.ty ≠ ty) (hvoid : ty ≠ .void) (he : e.form = .defaultOf) : e.retype ty =
    if Value.equalsOption e.ty.defaultValue? ty.defaultValue? then liftM (defaultOf ty) else e.coerce ty := by
  have hnot : (ty == .void) = false := by simpa using hvoid
  rw [retype_eq, if_neg (by simpa using hty), he]
  simp only [hnot, Bool.false_or]

theorem retype_var (hty : e.ty ≠ ty) {x : Var} (he : e.form = .var x) : e.retype ty = e.coerce ty := by
  rw [retype_eq, if_neg (by simpa using hty), he]

/-! ### Defaults and the values they stand for -/

section

variable {source target : Ty} {d c r r' : Expr} {v : Value} {s s' t t' : Supply .node}
variable (hne : target ≠ source) (hvoid : target ≠ .void) (hd : d.form = .defaultOf) (hdty : d.ty = source)
variable (hv : source.defaultValue? = some v) (hc : c.form = .constant v) (hcty : c.ty = source)

include hne hvoid hd hdty hv

/-- A default that is not null is converted. -/
theorem retype_default_of_exact (hexact : v.runtimeType? = some source) : d.retype target = d.coerce target := by
  rw [retype_default (by rw [hdty]; exact hne.symm) hvoid hd, hdty, hv, Ty.equalsOption_exact hexact hne]
  rfl

/-- A null stays a null under a type with nulls, and is converted otherwise. -/
theorem retype_default_of_null (hnull : v = .null) :
    d.retype target = if target.admitsNull then liftM (defaultOf target) else d.coerce target := by
  rw [retype_default (by rw [hdty]; exact hne.symm) hvoid hd, hdty, hv, hnull, Ty.equalsOption_null]

include hc hcty

theorem retype_default_isOk : (d.retype target s).isOk = (c.retype target s').isOk := by
  rw [retype_constant (by rw [hcty]; exact hne.symm) hc]
  rcases Ty.defaultValue?_cases hv with ⟨hnull, _⟩ | hexact
  · rw [retype_default_of_null hne hvoid hd hdty hv hnull, hnull, Value.isCompatible_of_null rfl]
    cases target.admitsNull with
    | true => rfl
    | false => exact (coerce_isOk d hvoid s).trans (by rw [hdty, ← hcty]; exact (coerce_isOk c hvoid s').symm)
  · rw [retype_default_of_exact hne hvoid hd hdty hv hexact, coerce_isOk d hvoid, hdty]
    cases hfits : v.isCompatible target with
    | true => exact isConvertible_of_isCompatible hexact hv hfits
    | false => exact (hcty ▸ coerce_isOk c hvoid s').symm

/-- The results have the same known value, unless it is not null and fits the type; then it is known of the constant only. -/
theorem retype_default_value (hr : d.retype target s = .ok (r, t)) (hr' : c.retype target s' = .ok (r', t')) :
    (v = .null ∨ v.isCompatible target = false → r.constantValue? = r'.constantValue?) ∧
      (v ≠ .null → v.isCompatible target = true →
        r.form = .convert d ∧ r.constantValue? = none ∧ r'.constantValue? = some v) := by
  rw [retype_constant (by rw [hcty]; exact hne.symm) hc] at hr'
  rcases Ty.defaultValue?_cases hv with ⟨hnull, _⟩ | hexact
  · rw [retype_default_of_null hne hvoid hd hdty hv hnull] at hr
    rw [hnull, Value.isCompatible_of_null rfl] at hr'
    refine ⟨fun _ => ?_, fun h => absurd hnull h⟩
    cases hadmits : target.admitsNull with
    | true =>
      rw [hadmits] at hr hr'
      cases hr
      cases hr'
      exact Ty.defaultValue?_of_admitsNull hadmits
    | false =>
      rw [hadmits] at hr hr'
      rw [constantValue?, coerce_convert hvoid hr, constantValue?, coerce_convert hvoid hr']
  · rw [retype_default_of_exact hne hvoid hd hdty hv hexact] at hr
    have hform : r.form = .convert d := coerce_convert hvoid hr
    have hnull : v ≠ .null := by
      rintro rfl
      cases hexact
    have hunknown : r.constantValue? = none := by rw [constantValue?, hform]
    refine ⟨fun h => ?_, fun _ hfits => ⟨hform, hunknown, ?_⟩⟩
    · rw [h.resolve_left hnull] at hr'
      rw [hunknown, constantValue?, coerce_convert hvoid hr']
    · rw [hfits] at hr'
      have hmade : constant v target s' = (r', t') := Except.ok.inj hr'
      have hform' := (constant_run v target s').1
      rw [hmade] at hform'
      rw [constantValue?, hform']

end

end Expr

/-- **Defaults** are retyped like the values they stand for. A default can be given another type exactly when the constant of
its value can, and the two results have the same known value unless that value is not null and fits the type: then the
constant keeps it, and the default is converted, so that its value is not known any more. A default whose value is not known
can be given a type with a known default exactly when a variable can. -/
theorem default_retyped_like_value (catalog : Catalog) (source target : Ty) (other : target ≠ source)
    (valued : target ≠ .void) (d : Expr) (form : d.form = .defaultOf) (ty : d.ty = source) (s s' : Supply .node) :
    (∀ (v : Value) (c : Expr), source.defaultValue? = some v → c.form = .constant v → c.ty = source →
      (d.retype target s).isOk = (c.retype target s').isOk ∧
        ∀ (r r' : Expr) t t', d.retype target s = .ok (r, t) → c.retype target s' = .ok (r', t') →
          (v = .null ∨ v.isCompatible target = false →
            catalog.facts.constantValue? r = catalog.facts.constantValue? r') ∧
          (v ≠ .null → v.isCompatible target = true →
            r.form = .convert d ∧ catalog.facts.constantValue? r = none ∧ catalog.facts.constantValue? r' = some v)) ∧
      ∀ (x : Var) (e : Expr), source.defaultValue? = none → target.defaultValue? ≠ none → e.form = .var x → e.ty = source →
        (d.retype target s).isOk = (e.retype target s').isOk := by
  refine ⟨fun v c hv hc hcty => ⟨?_, fun r r' t t' hr hr' => ?_⟩, fun x e hunknown hknown he hety => ?_⟩
  · exact Expr.retype_default_isOk other valued form ty hv hc hcty
  · exact Expr.retype_default_value other valued form ty hv hc hcty hr hr'
  · obtain ⟨w, hw⟩ := Option.ne_none_iff_exists'.1 hknown
    have hdiffer : Value.equalsOption d.ty.defaultValue? target.defaultValue? = false := by
      rw [ty, hunknown, hw, Bool.eq_false_iff, ne_eq, Value.equalsOption_iff]
      rintro ⟨⟩
    rw [Expr.retype_default (by rw [ty]; exact other.symm) valued form, hdiffer,
      Expr.retype_var (by rw [hety]; exact other.symm) he, Expr.coerce_isOk e valued, hety, ← ty]
    exact Expr.coerce_isOk d valued s

/-- A declared value type, whose default is not known. -/
def point : Ty := .named (Ty.declare "Point" .structKind)

/-- A null integer becomes a null text, as the constant null does, and a point becomes an object, as a variable does. -/
theorem default_retyped_like_value_nulls :
    let absent := (Expr.defaultOf (.nullable .int) ⟨0⟩).1
    let null := (Expr.null (.nullable .int) ⟨0⟩).1
    let origin := (Expr.defaultOf point ⟨0⟩).1
    let place := (Expr.var ⟨0, "place", point⟩ ⟨0⟩).1
    (∃ r r' t t', absent.retype .string ⟨1⟩ = .ok (r, t) ∧ null.retype .string ⟨1⟩ = .ok (r', t') ∧
      r.form = .defaultOf ∧ Catalog.empty.facts.constantValue? r = Catalog.empty.facts.constantValue? r') ∧
      point.defaultValue? = none ∧ (place.retype .object ⟨1⟩).isOk = true ∧ (origin.retype .object ⟨1⟩).isOk = true := by
  intro absent null origin place
  have habsent : absent.retype .string ⟨1⟩ = .ok (Expr.defaultOf .string ⟨1⟩) := by
    rw [Expr.retype_default_of_null (by decide) (by decide) rfl rfl rfl rfl]
    rfl
  have hnull : null.retype .string ⟨1⟩ = .ok (Expr.constant .null .string ⟨1⟩) := by
    rw [Expr.retype_constant (by decide) rfl]
    rfl
  have hplace : (place.retype .object ⟨1⟩).isOk = true := by
    rw [Expr.retype_var (by decide) rfl]
    rfl
  have hlike := default_retyped_like_value .empty (.nullable .int) .string (by decide) (by decide) absent rfl rfl ⟨1⟩ ⟨1⟩
  have hlike' := default_retyped_like_value .empty point .object (by decide) (by decide) origin rfl rfl ⟨1⟩ ⟨1⟩
  obtain ⟨_, hvalues⟩ := hlike.1 .null null rfl rfl rfl
  have horigin := hlike'.2 ⟨0, "place", point⟩ place rfl (by rw [Ty.defaultValue?_of_admitsNull rfl]; simp) rfl rfl
  refine ⟨⟨_, _, _, _, habsent, hnull, rfl, ?_⟩, rfl, hplace, horigin.trans hplace⟩
  exact (hvalues _ _ _ _ habsent hnull).1 (.inl rfl)

/-- The default integer, lifted to a type with nulls, is a conversion without a known value; the constant zero stays a
constant. -/
theorem lifted_default_unknown :
    let d := (Expr.defaultOf .int ⟨0⟩).1
    let c := (Expr.constant (.int 0) .int ⟨0⟩).1
    Ty.int.defaultValue? = some (.int 0) ∧ ∃ r r' t t', d.retype (.nullable .int) ⟨1⟩ = .ok (r, t) ∧
      c.retype (.nullable .int) ⟨1⟩ = .ok (r', t') ∧ Catalog.empty.facts.constantValue? r = none ∧
        Catalog.empty.facts.constantValue? r' = some (.int 0) := by
  intro d c
  have hd : d.retype (.nullable .int) ⟨1⟩ = .ok (Expr.convert d (.nullable .int) ⟨1⟩) := by
    rw [Expr.retype_default_of_exact (by decide) (by decide) rfl rfl rfl rfl]
    rfl
  have hc : c.retype (.nullable .int) ⟨1⟩ = .ok (Expr.constant (.int 0) (.nullable .int) ⟨1⟩) := by
    rw [Expr.retype_constant (by decide) rfl]
    rfl
  exact ⟨rfl, _, _, _, _, hd, hc, rfl, rfl⟩

end TypedTree
