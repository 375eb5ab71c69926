import TypedTree.Proofs.Assignability
import TypedTree.Proofs.ValueEquality
import TypedTree.Proofs.WellTyped

/-!
# Constants stay well typed

A constant is well typed when its value is compatible with its static type. Where a value comes from evaluators, or is
converted, this is checked. Elsewhere it is not: an element that is read from an array is compatible with the element type of
that array, which may be narrower than the type of the array expression says; an item of a new array is compatible with its
own type, which may be narrower than the element type; and the literal for a parameter is compatible with the type of its
argument, and converted where it has to be.

So well-typed constants alone are not kept. Types need classes for bases, by which compatibility with a type extends to wider
ones, and values have to be sound all the way down (`Value.Sound`), those that evaluators give included
(`Evaluators.KeepSound`). Then what is found without a check is well typed (`Optimizer.Denotes.sound`), and visits keep what
is asked of the nodes of a tree (`Expr.IsSound`). Choices and connectives may have branches and operands of any types, as a
branch is retyped when it takes the place of the choice (`Retyped.sound`).
-/

namespace TypedTree

/-! ### Sound values -/

namespace Value

/-- The values in a value: its parts, or the exception that is wrapped. -/
def contents : Value → List Value
  | .exception x => x.inner.toList.map .exception
  | v => v.parts

/-- The value has a sound type and, if it is an array, items that are compatible with its element type; and the values in it
are sound. -/
inductive Sound : Value → Prop where
  | intro {v : Value} : v.HasSoundType → (∀ a, v = .array a → ∀ item ∈ a.items, item.isCompatible a.element = true) →
      (∀ p ∈ v.contents, Sound p) → Sound v

variable {v p item : Value} {a : ArrayOf Value}

theorem Sound.hasSoundType : v.Sound → v.HasSoundType
  | .intro hty _ _ => hty

theorem Sound.part : v.Sound → p ∈ v.contents → p.Sound
  | .intro _ _ hcontents, hp => hcontents p hp

theorem Sound.item_fits : Sound (.array a) → item ∈ a.items → item.isCompatible a.element = true
  | .intro _ hitems _, hitem => hitems a rfl item hitem

/-- A value that holds no others is sound when its type is. -/
theorem sound_of_contents (hty : v.HasSoundType) (hcontents : v.contents = []) : v.Sound := by
  refine .intro hty ?_ (by simp [hcontents])
  rintro a rfl item hitem
  rw [show a.items = [] from hcontents] at hitem
  cases hitem

theorem sound_array (hbases : a.element.hasClassBases = true)
    (hitems : ∀ item ∈ a.items, item.Sound ∧ item.isCompatible a.element = true) : Sound (.array a) := by
  refine .intro ?_ ?_ fun item hitem => (hitems item hitem).1
  · rintro _ ⟨⟩
    exact ⟨by simp [ArrayOf.ty], hbases⟩
  · rintro _ ⟨⟩ item hitem
    exact (hitems item hitem).2

/-- **Covariance**: the items of an array are compatible with the element type of every array type that the array is
compatible with. -/
theorem Sound.element_fits {element : Ty} {rank : Nat} (h : Sound (.array a)) (hitem : item ∈ a.items)
    (hfits : (Value.array a).isCompatible (.array element rank) = true) : item.isCompatible element = true := by
  have hwidens : element.Widens a.element := by
    rcases (isCompatible_of_runtimeType rfl).1 hfits with h | h
    · generalize hty : a.ty = exact at h
      cases h with
      | refl => cases hty; exact .refl
      | array _ h => cases hty; exact h
      | interface hinterface => cases hinterface
      | ancestor _ _ h => cases hty; cases List.mem_singleton.1 h
    · cases h
      exact .refl
  have hbases : a.element.hasClassBases = true := (h.hasSoundType a.ty rfl).2
  exact isCompatible_of_widens (h.part hitem).hasSoundType hbases (h.item_fits hitem) hwidens

theorem Sound.unwrap {x : Exception} (h : Sound (.exception x)) : Sound (.exception x.unwrap) := by
  unfold Exception.unwrap
  split
  · cases hinner : x.inner with
    | none => exact h
    | some inner => exact h.part (by simp [contents, hinner])
  · exact h

/-- An exception that is predicted is sound. -/
theorem sound_of_predicted {x : Exception} {name : String} (hty : x.ty = .exceptionNamed name) (hinner : x.inner = none) :
    Sound (.exception x) := by
  refine sound_of_contents ?_ (by simp [contents, hinner])
  rintro _ ⟨⟩
  rw [hty]
  exact ⟨by simp [Ty.exceptionNamed], rfl⟩

end Value

theorem Ty.defaultValue_sound {ty : Ty} {v : Value} (h : ty.defaultValue? = some v) :
    v.Sound ∧ v.isCompatible ty = true := by
  unfold Ty.defaultValue? at h
  split at h
  iterate 5
    · cases h
      refine ⟨Value.sound_of_contents ?_ rfl, Value.isCompatible_exact rfl⟩
      rintro _ ⟨⟩
      exact ⟨by simp, rfl⟩
  · split at h
    · next hnull =>
      cases h
      exact ⟨Value.sound_of_contents (by simp [Value.HasSoundType, Value.runtimeType?]) rfl, hnull⟩
    · cases h

theorem Ty.IsDefault.sound {ty : Ty} {v : Value} (h : ty.IsDefault v) (hbases : ty.hasClassBases = true) :
    v.Sound ∧ v.isCompatible ty = true := by
  cases h with
  | value h => exact Ty.defaultValue_sound h
  | @empty x hvalue hty hfields =>
    have hcontents : (Value.object x).contents = [] := by simp [Value.contents, Value.parts, hfields]
    refine ⟨Value.sound_of_contents ?_ hcontents, Value.isCompatible_exact (by rw [← hty]; rfl)⟩
    rintro _ ⟨⟩
    rw [hty]
    refine ⟨?_, hbases⟩
    rintro rfl
    cases hvalue

/-! ### Sound nodes -/

/-- The type of the node and those of its parameters have classes for bases, and it is the type that the parts of the node
determine; a constant is sound and compatible with its type, and the items of a new array can be stored in it. -/
structure Expr.IsSound (e : Expr) : Prop where
  typed : e.HasBasicType
  bases : e.ty.hasClassBases = true
  params {params : List Var} {body : Expr} : e.form = .lambda params body → ∀ x ∈ params, x.ty.hasClassBases = true
  constant {v : Value} : e.form = .constant v → v.Sound ∧ v.isCompatible e.ty = true
  items {element : Ty} {items : List Expr} : e.form = .newArray element .items items →
    ∀ i ∈ items, element.assignableFrom i.ty = true

/-- Nothing is asked of nodes of the form but that their types have classes for bases. -/
def Form.isLenient {α : Type} : Form α → Bool
  | .defaultOf | .convert _ | .conditional .. | .logical .. | .throw _ | .block .. | .tryCatch .. | .jump .. => true
  | _ => false

section

variable {e n r : Expr}

theorem typeRule_sound : TypeRule Expr.IsSound where
  basic h := h.typed
  of_rel {e n} he hty hrel := by
    refine ⟨he.typed.of_rel hty hrel, hty ▸ he.bases, ?_, ?_, ?_⟩
    all_goals generalize hf : e.form = f at hrel
    · intro params body hform
      rw [hform] at hrel
      cases hrel
      exact he.params hf
    · intro v hform
      rw [hform] at hrel
      cases hrel
      exact hty ▸ he.constant hf
    · intro element items hform i hi
      rw [hform] at hrel
      cases hrel with
      | newArray hs =>
        obtain ⟨a, ha, h⟩ := exists_left_of_forall₂ hs hi
        rw [h]
        exact he.items hf a ha

theorem isSound_of_form (hform : r.form.isLenient = true) (hbases : r.ty.hasClassBases = true) : r.IsSound := by
  refine ⟨?_, hbases, ?_, ?_, ?_⟩
  · unfold Expr.HasBasicType
    generalize r.form = f at hform
    cases f with
    | defaultOf | convert | conditional | logical | throw | block | tryCatch | jump => trivial
    | _ => cases hform
  all_goals
    intros
    simp_all [Form.isLenient]

theorem isSound_of_constant {v : Value} (hf : r.form = .constant v) (hbases : r.ty.hasClassBases = true) (hv : v.Sound)
    (hfits : v.isCompatible r.ty = true) : r.IsSound := by
  refine ⟨by rw [Expr.HasBasicType, hf]; trivial, hbases, by simp [hf], ?_, by simp [hf]⟩
  intro w hw
  cases hf.symm.trans hw
  exact ⟨hv, hfits⟩

theorem sound_of_form (hform : r.form.isLenient = true) (hbases : r.ty.hasClassBases = true)
    (hc : ∀ c ∈ r.form.children, c.All Expr.IsSound) : r.All Expr.IsSound :=
  .node (isSound_of_form hform hbases) hc

theorem sound_of_constant {v : Value} (hf : r.form = .constant v) (hbases : r.ty.hasClassBases = true) (hv : v.Sound)
    (hfits : v.isCompatible r.ty = true) : r.All Expr.IsSound :=
  .node (isSound_of_constant hf hbases hv hfits) (by simp [hf, Form.children])

theorem sound_of_default (hf : r.form = .defaultOf) (hbases : r.ty.hasClassBases = true) : r.All Expr.IsSound :=
  sound_of_form (by rw [hf]; rfl) hbases (by simp [hf, Form.children])

theorem Expr.Raises.sound {x : Exception} (h : r.Raises x) (hbases : r.ty.hasClassBases = true)
    (hx : Value.Sound (.exception x)) : r.All Expr.IsSound := by
  obtain ⟨c, hr, hc, hcty⟩ := h
  refine sound_of_form (by rw [hr]; rfl) hbases ?_
  rw [hr]
  refine List.forall_mem_singleton.2 (sound_of_constant hc ?_ hx (Value.isCompatible_exact (by rw [hcty]; rfl)))
  rw [hcty]
  exact (hx.hasSoundType x.ty rfl).2

/-- A known value is sound and compatible with the type of its expression. -/
theorem Expr.IsSound.known (he : e.IsSound) {v : Value} (h : e.constantValue? = some v) :
    v.Sound ∧ v.isCompatible e.ty = true := by
  unfold Expr.constantValue? at h
  split at h
  · next value hf =>
    cases h
    exact he.constant hf
  · exact Ty.defaultValue_sound h
  · cases h

theorem Form.isLenient_of_untyped {form : Form Expr} (h : form.isUntyped = true) : form.isLenient = true := by
  cases form with
  | defaultOf | convert | throw | block | jump => rfl
  | _ => cases h

/-- **Retyping** keeps trees sound: a constant gets another type only if it fits. -/
theorem Retyped.sound {ty : Ty} (h : Retyped ty e r) (he : e.All Expr.IsSound) (hbases : ty.hasClassBases = true) :
    r.All Expr.IsSound := by
  refine h.all ⟨?_, ?_, ?_⟩ he
  · intro a b value ha hf hfits hty hb
    exact isSound_of_constant hb (hty ▸ hbases) (ha.constant hf).1 (hty ▸ hfits)
  · intro a b _ _ _ _ _ _ _ _ _ hty hb
    exact isSound_of_form (by rw [hb]; rfl) (hty ▸ hbases)
  · intro b hty huntyped
    exact isSound_of_form (Form.isLenient_of_untyped huntyped) (hty ▸ hbases)

end

/-! ### Where values come from -/

/-- What came of an evaluation is sound. -/
def SoundOutcome : Except Exception Value → Prop
  | .ok v => v.Sound
  | .error x => Value.Sound (.exception x)

/-- Given sound operands, evaluators give sound values and raise sound exceptions. -/
def Evaluators.KeepSound {σ κ : Type} (ev : Evaluators σ κ) : Prop :=
  ∀ operands outcome, ev.Yields operands outcome → (∀ v ∈ operands, v.Sound) → SoundOutcome outcome

theorem Expr.Answers.sound {n r : Expr} {outcome : Except Exception Value} (h : n.Answers outcome r) (hn : n.IsSound)
    (houtcome : SoundOutcome outcome) : r.All Expr.IsSound := by
  obtain ⟨hty, h⟩ := h
  have hbases : r.ty.hasClassBases = true := hty ▸ hn.bases
  cases outcome with
  | ok value =>
    dsimp only at h
    split at h
    · exact sound_of_default h hbases
    · exact sound_of_constant h.1 hbases houtcome (hty ▸ h.2)
  | error raised => exact h.sound hbases houtcome.unwrap

namespace Optimizer

variable {σ κ : Type} {o : Optimizer σ κ} {cx : Context} {n r : Expr}
variable (hvalue : ∀ {c v}, o.facts.constantValue? c = some v → c.constantValue? = some v)

include hvalue

/-- The values that are known for sound trees are sound. -/
theorem sound_of_knows {es : List Expr} {values : List Value} (h : o.facts.Knows es values)
    (hes : ∀ e ∈ es, e.All Expr.IsSound) {v : Value} (hv : v ∈ values) :
    ∃ e ∈ es, v.Sound ∧ v.isCompatible e.ty = true := by
  obtain ⟨e, he, hknown⟩ := exists_left_of_forall₂ h hv
  exact ⟨e, he, (hes e he).here.known (hvalue hknown)⟩

theorem Supplies.sound {v : Value} (h : o.Supplies n v) (hn : n.All Expr.IsSound) : v.Sound := by
  cases h with
  | known hc hknown => exact ((hn.child hc).here.known (hvalue hknown)).1
  | @bound c d t v hc hknown ht hreceiver =>
    have hd := ((hn.child hc).here.known (hvalue hknown)).1
    exact hd.part (List.mem_filterMap.2 ⟨t, ht, hreceiver⟩)

/-- **Values that are found** are sound and compatible with the type of the node, without a check. -/
theorem Denotes.sound {v : Value} (h : o.Denotes n v) (hn : n.All Expr.IsSound) :
    v.Sound ∧ v.isCompatible n.ty = true := by
  have hty := hn.here.typed
  have hbases := hn.here.bases
  cases h with
  | @items element items a hform hknown helement hrank =>
    simp only [Expr.HasBasicType, hform] at hty
    subst helement
    have hexact : (Value.array a).runtimeType? = some n.ty := by rw [hty, Value.runtimeType?, ArrayOf.ty, hrank]
    rw [hty] at hbases
    refine ⟨Value.sound_array hbases fun v hv => ?_, Value.isCompatible_exact hexact⟩
    have hitems : ∀ i ∈ items, i.All Expr.IsSound := fun i hi => hn.child (by rw [hform]; exact hi)
    obtain ⟨i, hi, hsound, hfits⟩ := sound_of_knows hvalue hknown hitems hv
    have hwidens := Ty.assignableFrom_iff.1 (hn.here.items hform i hi)
    exact ⟨hsound, Value.isCompatible_of_widens hsound.hasSoundType (hitems i hi).here.bases hfits hwidens⟩
  | @bounds element bounds a hform helement hrank hdefaults =>
    simp only [Expr.HasBasicType, hform] at hty
    subst helement
    have hexact : (Value.array a).runtimeType? = some n.ty := by rw [hty, Value.runtimeType?, ArrayOf.ty, hrank]
    rw [hty] at hbases
    exact ⟨Value.sound_array hbases fun v hv => (hdefaults v hv).sound hbases, Value.isCompatible_exact hexact⟩
  | @element receiver args a item hform hknown hitem =>
    have hreceiver : receiver.All Expr.IsSound := hn.child (by rw [hform]; exact List.mem_cons_self)
    obtain ⟨harray, hfits⟩ := hreceiver.here.known (hvalue hknown)
    refine ⟨harray.part hitem, ?_⟩
    simp only [Expr.HasBasicType, hform, Expr.elementType] at hty
    split at hty
    · contradiction
    · next hrty =>
      rw [hrty] at hfits
      rw [hty]
      exact harray.element_fits hitem hfits
    · rw [hty]
      exact Value.isCompatible_object (harray.part hitem).hasSoundType
  | created _ hdefault => exact hdefault.sound hbases
  | converted hform hknown hfits =>
    exact ⟨((hn.child (by rw [hform]; exact List.mem_cons_self)).here.known (hvalue hknown)).1, hfits⟩

/-- A literal for a parameter is sound. -/
theorem literal_sound {p q : Var × Expr} (h : IsLiteral o.facts p q) (hbases : p.1.ty.hasClassBases = true)
    (harg : p.2.All Expr.IsSound) : q.2.All Expr.IsSound := by
  obtain ⟨_, value, c, hknown, hcty, hc, hretyped⟩ := h
  obtain ⟨hsound, hfits⟩ := harg.here.known (hvalue hknown)
  exact hretyped.sound (sound_of_constant hc (hcty ▸ harg.here.bases) hsound (hcty ▸ hfits)) hbases

theorem Inlines.sound {reduced : Expr} (h : o.Inlines n reduced) (hn : n.All Expr.IsSound) :
    reduced.All Expr.IsSound := by
  obtain ⟨callee, params, body, args, _, b, hform, hcallee, _, hinlined, hr⟩ := h
  have hliteral : ∀ p ∈ params.zip args, ∀ q, IsLiteral o.facts p q → q.2.All Expr.IsSound := by
    intro p hp q hq
    have hc : callee.All Expr.IsSound := hn.child (by rw [hform]; exact List.mem_cons_self)
    obtain ⟨hparam, harg⟩ := List.of_mem_zip hp
    refine literal_sound hvalue hq (hc.here.params hcallee p.1 hparam) (hn.child ?_)
    rw [hform]
    exact List.mem_cons_of_mem _ harg
  exact hr.sound (hinlined.typed typeRule_sound hn hform hcallee hliteral).2 hn.here.bases

variable (hev : o.evaluators.KeepSound)

include hev

theorem Computes.sound (h : o.Computes n r) (hn : n.All Expr.IsSound) : r.All Expr.IsSound := by
  have hbases : r.ty.hasClassBases = true := h.ty_eq ▸ hn.here.bases
  cases h with
  | ran hyields hsupplied hanswers =>
    exact hanswers.sound hn.here (hev _ _ hyields fun v hv => (hsupplied v hv).sound hvalue hn)
  | found hty hf hdenotes =>
    obtain ⟨hsound, hfits⟩ := hdenotes.sound hvalue hn
    exact sound_of_constant hf hbases hsound (hty ▸ hfits)
  | raised _ _ hraises hxty hinner => exact hraises.sound hbases (Value.sound_of_predicted hxty hinner)

/-- **One step** keeps a tree sound. -/
theorem Step.sound (h : o.Step n cx r) (hn : n.All Expr.IsSound) : r.All Expr.IsSound := by
  have hbases := hn.here.bases
  cases h with
  | kept => exact hn
  | threw ht hr => exact hr.sound (ht.all fun _ => hn.child) hbases
  | @threwAfter pre post t t' r hops _ _ hr hty hform =>
    have hmem : ∀ a ∈ pre ++ t :: post, a.All Expr.IsSound :=
      fun a ha => hn.child (Form.mem_children_of_operands (hops ▸ ha))
    refine sound_of_form (by rw [hform]; rfl) (hty ▸ hbases) ?_
    rw [hform]
    simp only [Form.children, List.mem_append, List.mem_filter, List.mem_singleton]
    rintro c (⟨hc, _⟩ | rfl)
    · exact hmem c (by simp [hc])
    · exact hr.sound (hmem t (by simp)) hbases
  | @called m args values callable outcome r hform hknown hcompile hinvoke ha =>
    obtain ⟨w, hcompile⟩ := hcompile
    obtain ⟨w', hinvoke⟩ := hinvoke
    refine ha.sound hn.here (hev values outcome ⟨m, w, callable, w', hcompile, hinvoke⟩ fun v hv => ?_)
    obtain ⟨_, _, hv, _⟩ := sound_of_knows hvalue hknown (fun e he => hn.child (by rw [hform]; exact he)) hv
    exact hv
  | folded _ hc => exact hc.sound hvalue hev hn
  | decided b =>
    refine sound_of_constant rfl rfl (Value.sound_of_contents ?_ rfl) rfl
    rintro _ ⟨⟩
    exact ⟨by simp, rfl⟩
  | branch hb hr => exact hr.sound (hn.child hb.mem) hbases
  | defaulted _ _ _ hty hform => exact sound_of_default hform (hty ▸ hbases)
  | @flattened test whenTrue whenFalse innerTest innerTrue innerFalse both r hform htrue _ _ _ _ _ _ hbty hboth hrty hr =>
    have houter : ∀ c ∈ [test, whenTrue, whenFalse], c.All Expr.IsSound := fun c hc => hn.child (by rw [hform]; exact hc)
    have hinner : ∀ c ∈ [innerTest, innerTrue, innerFalse], c.All Expr.IsSound :=
      fun c hc => (houter whenTrue (by simp)).child (by rw [htrue]; exact hc)
    have hb : both.All Expr.IsSound := by
      refine sound_of_form (by rw [hboth]; rfl) (by rw [hbty]; rfl) ?_
      rw [hboth]
      simpa [Form.children] using ⟨houter test (by simp), hinner innerTest (by simp)⟩
    refine sound_of_form (by rw [hr]; rfl) (hrty ▸ hbases) ?_
    rw [hr]
    simpa [Form.children] using ⟨hb, hinner innerTrue (by simp), houter whenFalse (by simp)⟩
  | simplified hform hsimplified _ hty hr =>
    refine sound_of_form (by rw [hr]; rfl) (hty ▸ hbases) fun c hc => hn.child ?_
    rw [hr] at hc
    rw [hform]
    exact mem_children_of_simplified hsimplified hc

theorem preserves_sound : o.Preserves Expr.IsSound where
  rule := typeRule_sound
  step h hn := h.sound hvalue hev hn
  inlines h hn := h.sound hvalue hn

end Optimizer

/-- **Constants stay well typed**: when the nodes of a tree are sound and evaluators keep values sound, then in what a visit
or a whole run gives, the value of every constant is compatible with its static type; whatever the context, the settings and
the catalog, and with hooks that replace nothing. -/
theorem constants_stay_typed {σ κ : Type} (catalog : Catalog) (evaluators : Evaluators σ κ) (hooks : Hooks σ)
    (settings : Settings) (hooks_transparent : hooks.Transparent) (evaluators_sound : evaluators.KeepSound) (e : Expr)
    (cx : Context) (s : Progress σ) (identified : e.Identified s.nodes) (sound : e.All Expr.IsSound) :
    let o : Optimizer σ κ := ⟨catalog.facts, evaluators, hooks, settings⟩
    (∀ r s', o.visit e cx s = .ok r s' → r.All fun a => ∀ v, a.form = .constant v → v.isCompatible a.ty = true) ∧
      ∀ r s', o.optimize e s = .ok r s' → r.All fun a => ∀ v, a.form = .constant v → v.isCompatible a.ty = true := by
  intro o
  have hkept : o.Preserves Expr.IsSound := Optimizer.preserves_sound id evaluators_sound
  have hfits : ∀ {r : Expr}, r.All Expr.IsSound → r.All fun a => ∀ v, a.form = .constant v → v.isCompatible a.ty = true :=
    fun h => h.mono fun a ha v hv => (ha.constant hv).2
  constructor
  · intro r s' hrun
    exact hfits (hkept.visits (Optimizer.visits_of_visit hooks_transparent identified hrun) sound)
  · intro r s' hrun
    obtain ⟨rfl | h, _⟩ := Optimizer.visits_of_optimize hooks_transparent identified hrun
    · exact hfits sound
    · exact hfits (hkept.visits h sound)

open Store

/-- An array of one exception, of a class of its own. -/
def oneFault : ArrayOf Value := ⟨0, .nullReference, [1], [.exception ⟨1, .nullReference, "", none⟩]⟩

theorem oneFault_sound : Value.Sound (.array oneFault) :=
  Value.sound_array rfl (List.forall_mem_singleton.2 ⟨Value.sound_of_predicted rfl rfl, Value.isCompatible_exact rfl⟩)

/-- A function literal that gives the first of some exceptions, invoked on an array of exceptions of one class. -/
def firstFault : Fresh .node Expr := do
  let x : Var := ⟨0, "x", .array .exception 1⟩
  let first ← Expr.index (← Expr.var x) none [← Expr.constant (.int 0) .int] false
  Expr.invoke (← Expr.lambda [x] first) [← Expr.make (.array .nullReference 1) (.constant (.array oneFault))]

theorem firstFault_reaches : making.reaches initial firstFault fun st e => e ∈ st := by
  refine making.ofBind (Expr.make_mem rfl (List.forall_mem_nil _)) fun st₁ _ x hx => ?_
  refine making.ofBind (Expr.constant_reaches (.int 0) .int) fun st₂ hst₂ zero hzero => ?_
  have hparts : x ∈ st₂ ∧ zero ∈ st₂ := ⟨mem_of_le hst₂ hx, hzero.1⟩
  refine making.ofBind (Expr.make_mem rfl (by simpa [Form.children] using hparts)) fun st₃ _ first hfirst => ?_
  refine making.ofBind (Expr.make_mem rfl (by simpa [Form.children] using hfirst)) fun st₄ _ callee hcallee => ?_
  refine making.ofBind (Expr.make_mem rfl (List.forall_mem_nil _)) fun st₅ hst₅ arg harg => ?_
  refine Expr.make_mem rfl ?_
  simpa [Form.children] using ⟨mem_of_le hst₅ hcallee, harg⟩

theorem firstFault_sound : (firstFault ⟨0⟩).1.All Expr.IsSound := by
  have hzero : Value.Sound (.int 0) := (Ty.defaultValue_sound (show Ty.int.defaultValue? = _ from rfl)).1
  refine .node ⟨rfl, rfl, nofun, nofun, nofun⟩ (List.forall_mem_cons.2 ⟨.node ⟨rfl, rfl, ?_, nofun, nofun⟩ ?_, ?_⟩)
  · rintro _ _ ⟨⟩
    exact List.forall_mem_singleton.2 rfl
  · refine List.forall_mem_singleton.2 (.node ⟨rfl, rfl, nofun, nofun, nofun⟩ (List.forall_mem_cons.2 ⟨?_, ?_⟩))
    · exact .node ⟨rfl, rfl, nofun, nofun, nofun⟩ nofun
    · exact List.forall_mem_singleton.2 (sound_of_constant rfl rfl hzero rfl)
  · exact List.forall_mem_singleton.2 (sound_of_constant rfl rfl oneFault_sound (Value.isCompatible_exact rfl))

/-- The exception is read from the array under the type of the parameter, and nothing checks that it fits. -/
theorem constants_stay_typed_firstFault :
    let e := (firstFault ⟨0⟩).1
    let s : Progress Console := ⟨(firstFault ⟨0⟩).2, ⟨⟨0⟩, .empty⟩, .empty⟩
    Optimizer.bare.evaluators.KeepSound ∧ e.Identified s.nodes ∧ e.All Expr.IsSound ∧
      ∃ r s', Optimizer.bare.optimize e s = .ok r s' ∧ r.ty = .exception ∧
        r.constantValue?.bind (·.runtimeType?) = some .nullReference ∧
        r.All fun a => ∀ v, a.form = .constant v → v.isCompatible a.ty = true := by
  intro e s
  have evaluators_sound : Optimizer.bare.evaluators.KeepSound :=
    fun _ _ h => absurd h Optimizer.bare_runs_nothing
  have identified : e.Identified s.nodes := Expr.identified_of_reaches firstFault_reaches _
  have hok : Run.passes (fun r _ => r.ty == .exception && r.constantValue?.bind (·.runtimeType?) == some .nullReference)
      (Optimizer.bare.optimize e s) = true := by decide +kernel
  obtain ⟨r, s', hrun, htest⟩ := Run.exists_of_passes hok
  obtain ⟨hty, hvalue⟩ := Bool.and_eq_true_iff.1 htest
  refine ⟨evaluators_sound, identified, firstFault_sound, r, s', hrun, by simpa using hty, by simpa using hvalue, ?_⟩
  exact (constants_stay_typed .empty Registry.empty.natives .none .standard Hooks.none_transparent evaluators_sound e
    .plain s identified firstFault_sound).2 r s' hrun

end TypedTree
