import TypedTree.Proofs.Steps

/-!
# What rules have in common

A rule keeps a node, puts a retyped sub-expression in its place, or folds it to a leaf. What rules settle in this way is said
once for each of these parts (`Optimizer.Settles`), in terms of the steps of `Optimizer.Step`.
-/

namespace TypedTree

/-! ### Arrays and defaults -/

theorem ArrayOf.mem_of_get? {ν : Type} {a : ArrayOf ν} {indices : List Int} {item : ν} (h : a.get? indices = some item) :
    item ∈ a.items := by
  unfold ArrayOf.get? at h
  split at h
  · obtain ⟨i, _, hi⟩ := Option.bind_eq_some_iff.1 h
    exact List.mem_of_getElem? hi
  · cases h

theorem Bounds.ofValues_cases (values : List Value) : match Bounds.ofValues values with
    | .lengths ls => ls.length = values.length
    | .negative => values ≠ []
    | .unknown => True := by
  fun_induction Bounds.ofValues values with
  | case1 => rfl
  | case2 => trivial
  | case3 => exact List.cons_ne_nil _ _
  | case4 v vs i hi hpos ls hls ih =>
    rw [hls] at ih
    simpa using ih
  | case5 v vs i hi hpos hls ih =>
    split
    · next ls h => exact absurd h (hls ls)
    · exact List.cons_ne_nil _ _
    · trivial

/-- A default for the places of an array is unknown, or can be made in every state. -/
theorem elementDefault_cases (ty : Ty) : elementDefault ty = pure none ∨
    ∃ x : Fresh .reference Value, elementDefault ty = some <$> x ∧ ∀ s, ty.IsDefault (x s).1 := by
  have hdefault : (pure ty.defaultValue? : Fresh .reference (Option Value)) = pure none ∨
      ∃ x : Fresh .reference Value, pure ty.defaultValue? = some <$> x ∧ ∀ s, ty.IsDefault (x s).1 := by
    cases h : ty.defaultValue? with
    | none => exact .inl rfl
    | some v => exact .inr ⟨pure v, rfl, fun _ => .value h⟩
  unfold elementDefault
  split
  · split
    · next hvalue => exact .inr ⟨Value.object <$> ObjectOf.make _ [], rfl, fun _ => .empty hvalue rfl rfl⟩
    · exact hdefault
  · exact hdefault

namespace Optimizer

open Store

variable {σ κ : Type} (o : Optimizer σ κ) {E : Halt → Prop} {st : Store} {cx : Context} {n : Expr}

/-- `r` exists and is what a step makes of `n`. -/
def Settles (cx : Context) (n : Expr) (st : Store) (r : Expr) : Prop := r ∈ st ∧ o.Step n cx r

/-- The rules for runs of the optimizer that may be halted as `E` says. -/
abbrev logic (_ : Optimizer σ κ) (E : Halt → Prop) : Logic (Run σ) Store := running E

/-! ### Nodes that are kept -/

variable {o}

theorem quiet_of_pure (h : ∀ again, o.rule again n cx = pure n) : o.Quiet cx n := by
  intro again t
  rw [h]
  exact (Run.still t).ofPure fun _ _ => rfl

theorem reaches_kept (hn : n ∈ st) (h : o.evaluators.Steady → o.Quiet cx n) :
    (o.logic E).reaches st (pure n) (o.Settles cx n) :=
  (o.logic E).ofPure fun _ hk => ⟨mem_of_le hk hn, .kept h⟩

theorem reaches_kept_of_eq (hn : n ∈ st) {x : Run σ Expr} (hrule : ∀ again, o.rule again n cx = x) (heq : x = pure n) :
    (o.logic E).reaches st x (o.Settles cx n) := by
  rw [heq]
  exact reaches_kept hn fun _ => quiet_of_pure fun again => (hrule again).trans heq

theorem still_compile? {m : Member} {t : Nat} (hs : o.evaluators.Steady) (w : World σ) :
    (Run.still t).reaches .now (o.compile? m) fun _ callable => callable = (o.evaluators.compile m w).1.toOption := by
  refine (Run.still t).ofBind (Run.still_effect _) fun _ _ answer ⟨w', hw'⟩ => ?_
  obtain rfl : (o.evaluators.compile m w).1 = answer := (hs.compile m w w').trans hw'
  split
  · next h => exact (Run.still t).ofPure fun _ _ => by rw [h]; rfl
  · next h => exact (Run.still t).ofBind Run.still_refused fun _ _ _ _ => (Run.still t).ofPure fun _ _ => by rw [h]; rfl

/-- A fold that is given up is given up each time. -/
theorem quiet_of_refused {m : Member} {values : List Value} (h : ∀ again, o.rule again n cx = o.runMember n m values)
    {w : World σ} {fault : Fault} (hw : (o.evaluators.compile m w).1 = .error fault) (hs : o.evaluators.Steady) :
    o.Quiet cx n := by
  intro again t
  rw [h]
  refine (Run.still t).ofBind (still_compile? hs w) fun _ _ callable hc => ?_
  obtain rfl : callable = none := by rw [hc, hw]; rfl
  exact (Run.still t).ofPure fun _ _ => rfl

/-! ### The parts that rules share -/

theorem reaches_recorded {x : Run σ Expr} {P : Expr → Prop} (h : (o.logic E).reaches st x fun st' r => r ∈ st' ∧ P r)
    (k : Expr → Reduction) :
    (o.logic E).reaches st (do let r ← x; record (k r); return r) fun st' r => r ∈ st' ∧ P r := by
  refine (o.logic E).ofBind h fun st₁ _ r ⟨hr, hP⟩ => ?_
  refine (o.logic E).ofBind Run.reaches_record fun st₂ hst₂ _ _ => ?_
  exact (o.logic E).ofPure fun _ hk => ⟨mem_of_le (hst₂.trans hk) hr, hP⟩

theorem compile?_reaches (m : Member) : (o.logic E).reaches st (o.compile? m) fun _ answer => match answer with
    | none => ∃ w fault, (o.evaluators.compile m w).1 = .error fault
    | some callable => ∃ w, (o.evaluators.compile m w).1 = .ok callable := by
  refine (o.logic E).ofBind (Run.reaches_effect _) fun _ _ answer ⟨w, hw⟩ => ?_
  cases answer with
  | ok callable => exact (o.logic E).ofPure fun _ _ => ⟨w, hw⟩
  | error fault =>
    exact (o.logic E).ofBind Run.reaches_record fun _ _ _ _ => (o.logic E).ofPure fun _ _ => ⟨w, fault, hw⟩

variable (hE : ∀ fault, E (.fault fault))

include hE

theorem retype_reaches {a : Expr} (ha : a ∈ st) :
    (o.logic E).reaches st (liftM (a.retype n.ty)) fun st' r => r ∈ st' ∧ Retyped n.ty a r :=
  (o.logic E).ofImp (Run.reaches_fallible hE (a.retype_reaches n.ty ha)) fun _ _ _ h => ⟨h.1, h.2.1⟩

theorem throwInstead_reaches {t : Expr} (ht : t ∈ st) (h : o.Throws n t) :
    (o.logic E).reaches st (throwInstead n t) (o.Settles cx n) :=
  (o.logic E).ofImp (reaches_recorded (retype_reaches hE ht) fun _ => .threw) fun _ _ _ hr => ⟨hr.1, .threw h hr.2⟩

theorem takeBranch_reaches {b : Expr} (hb : b ∈ st) (h : o.Chooses n b) :
    (o.logic E).reaches st (takeBranch n b) (o.Settles cx n) :=
  (o.logic E).ofImp (reaches_recorded (retype_reaches hE hb) fun _ => .branch) fun _ _ _ hr => ⟨hr.1, .branch h hr.2⟩

theorem propagateThrow_reaches {operands : List Expr} (hform : n.form.operands = operands)
    (hops : ∀ e ∈ operands, e ∈ st) (h : (Operands.analyze o.facts operands).throws = true) :
    (o.logic E).reaches st (o.propagateThrow n operands (Operands.analyze o.facts operands)) (o.Settles cx n) := by
  obtain ⟨⟨position, t⟩, ht⟩ := Option.isSome_iff_exists.1 h
  obtain ⟨pre, post, rfl, rfl, _, hthrow, hpure⟩ := Operands.analyze_thrower ht
  have htm : t ∈ st := hops t (by simp)
  unfold propagateThrow
  simp only [ht]
  refine (o.logic E).ofBind (retype_reaches hE htm) ?_
  rintro st₁ hst₁ t' ⟨ht', hrt⟩
  by_cases hp : pre.all o.facts.isPure = true
  · rw [if_pos (hpure.trans hp)]
    refine reaches_recorded (P := o.Step n cx) ?_ fun _ => .threw
    refine (o.logic E).ofPure fun _ hk => ⟨mem_of_le hk ht', .threw (.operand hform ?_ hthrow) hrt⟩
    exact List.all_eq_true.1 hp
  · rw [if_neg (by rw [hpure]; exact hp)]
    have himpure : ∃ e ∈ pre, o.facts.isPure e = false := by
      simpa using hp
    rw [List.take_left]
    have hparts : ∀ c ∈ pre.filter (!o.facts.isPure ·) ++ [t'], c ∈ st₁ := by
      simp only [List.mem_append, List.mem_filter, List.mem_singleton]
      rintro c (⟨hc, _⟩ | rfl)
      · exact mem_of_le hst₁ (hops c (by simp [hc]))
      · exact ht'
    refine reaches_recorded (P := o.Step n cx) ?_ fun _ => .threw
    refine (o.logic E).ofImp (Run.reaches_fresh (Expr.make_reaches hparts (by simp [Form.clauses]))) ?_
    rintro _ _ r ⟨hr, _, hty, hf⟩
    exact ⟨hr, .threwAfter hform hthrow himpure hrt hty hf⟩

/-! ### Folds -/

omit hE

theorem outcomeFor_attempts (outcome : Except Exception Value) :
    attempting.reaches st (n.outcomeFor outcome) fun st' r => r ∈ st' ∧ n.Answers outcome r := by
  cases outcome with
  | error raised =>
    refine attempting.ofImp (Fallible.reaches_fresh (Expr.throwValue_reaches _ _)) ?_
    exact fun _ _ r ⟨hr, hty, hraises⟩ => ⟨hr, hty, hraises⟩
  | ok value =>
    change attempting.reaches st (n.constantFor value) _
    unfold Expr.constantFor
    split
    · next h =>
      have hv : n.ty = .void := by simpa using h
      refine attempting.ofImp (Fallible.reaches_fresh (Expr.make_reaches (by simp [Form.children]) ?_)) ?_
      · simp [Form.clauses]
      · rintro _ _ r ⟨hr, _, hty, hf⟩
        exact ⟨hr, hty.trans hv.symm, by simpa [hv] using hf⟩
    · next h =>
      have hv : n.ty ≠ .void := by simpa using h
      split
      · next hfits =>
        refine attempting.ofImp (Fallible.reaches_fresh (Expr.constant_reaches value n.ty)) ?_
        rintro _ _ r ⟨hr, _, hty, hf⟩
        exact ⟨hr, hty, by simpa [hv] using ⟨hf, hfits⟩⟩
      · exact Fallible.reaches_throw

/-- The leaf `r` is what the sub-expressions of `n` lead to, without anything being run: a constant, or a throw of an exception
that is predicted. -/
inductive Predicts (o : Optimizer σ κ) (n r : Expr) : Prop where
  | value {v : Value} : r.ty = n.ty → r.form = .constant v → o.Denotes n v → o.Predicts n r
  | exception {x : Exception} {name : String} : n.form.children ≠ [] → r.ty = n.ty → r.Raises x →
      x.ty = .exceptionNamed name → x.inner = none → o.Predicts n r

theorem Predicts.computes {r : Expr} (h : o.Predicts n r) : o.Computes n r := by
  cases h with
  | value hty hf hv => exact .found hty hf hv
  | exception hc hty hraises hx hinner => exact .raised hc hty hraises hx hinner

theorem Predicts.isLeaf {r : Expr} (h : o.Predicts n r) : r.IsLeaf := h.computes.isLeaf

theorem raiseFor_builds (hc : n.form.children ≠ []) (name message : String) :
    building.reaches st (n.raiseFor (.exceptionNamed name) message) fun st' r => r ∈ st' ∧ o.Predicts n r := by
  let Made : Exception → Prop := fun x => x.ty = .exceptionNamed name ∧ x.inner = none
  refine building.ofBind (Build.reaches_reference (Q := Made) fun _ => ⟨rfl, rfl⟩) ?_
  rintro st₁ _ x ⟨hty, hinner⟩
  refine building.ofImp (Build.reaches_fresh (Expr.throwValue_reaches _ _)) ?_
  exact fun _ _ r ⟨hr, hrty, hraises⟩ => ⟨hr, .exception hc hrty hraises hty hinner⟩

include hE

theorem outcomeFor_reaches (outcome : Except Exception Value) :
    (o.logic E).reaches st (liftM (n.outcomeFor outcome)) fun st' r => r ∈ st' ∧ n.Answers outcome r :=
  Run.reaches_fallible hE (outcomeFor_attempts outcome)

/-- A member that is run either cannot be compiled, and the node is kept, or has an outcome. -/
theorem runMember_reaches (hn : n ∈ st) (m : Member) (values : List Value) :
    (o.logic E).reaches st (o.runMember n m values) fun st' r => r ∈ st' ∧
      ((r = n ∧ ∃ w fault, (o.evaluators.compile m w).1 = .error fault) ∨
        ∃ callable outcome, (∃ w, (o.evaluators.compile m w).1 = .ok callable) ∧
          (∃ w, (o.evaluators.invoke callable values w).1 = outcome) ∧ n.Answers outcome r) := by
  refine (o.logic E).ofBind (compile?_reaches m) fun st₁ hst₁ answer h => ?_
  cases answer with
  | none => exact (o.logic E).ofPure fun _ hk => ⟨mem_of_le (hst₁.trans hk) hn, .inl ⟨rfl, h⟩⟩
  | some callable =>
    refine (o.logic E).ofBind (Run.reaches_effect _) fun st₂ _ outcome hout => ?_
    refine reaches_recorded ((o.logic E).ofImp (outcomeFor_reaches hE outcome) ?_) fun r => _
    exact fun _ _ r ⟨hr, ha⟩ => ⟨hr, .inr ⟨callable, outcome, h, hout, ha⟩⟩

omit hE

/-- The computation finds nothing, or predicts the node in every state. -/
def Finds (o : Optimizer σ κ) (n : Expr) (x : Build (Option Expr)) : Prop :=
  x = pure none ∨ ∀ st, building.reaches st x fun st' found => ∃ r, found = some r ∧ r ∈ st' ∧ o.Predicts n r

theorem finds_constant {x : Fresh .reference Value} (hx : ∀ s, o.Denotes n (x s).1) :
    o.Finds n (do let v ← x; some <$> (Expr.constant v n.ty : Build Expr)) := by
  refine .inr fun st => ?_
  refine building.ofBind (Build.reaches_reference hx) fun st₁ _ v hv => ?_
  rw [← bind_pure_comp]
  refine building.ofBind (Build.reaches_fresh (Expr.constant_reaches v n.ty)) fun st₂ _ r ⟨hr, _, hty, hf⟩ => ?_
  exact building.ofPure fun _ hk => ⟨r, rfl, mem_of_le hk hr, .value hty hf hv⟩

theorem finds_raise (hc : n.form.children ≠ []) (name message : String) :
    o.Finds n (some <$> n.raiseFor (.exceptionNamed name) message) := by
  refine .inr fun st => ?_
  rw [← bind_pure_comp]
  refine building.ofBind (raiseFor_builds (o := o) hc name message) fun st₁ _ r ⟨hr, hpredicts⟩ => ?_
  exact building.ofPure fun _ hk => ⟨r, rfl, mem_of_le hk hr, hpredicts⟩

theorem finds_items {element : Ty} {items : List Expr} {values : List Value}
    (hform : n.form = .newArray element .items items) (hknown : o.facts.Knows items values) (limit : Nat) :
    o.Finds n (n.foldItems element values limit) := by
  unfold Expr.foldItems
  split
  · exact finds_constant (x := Value.array <$> ArrayOf.vector element values) fun _ => .items hform hknown rfl rfl
  · exact .inl rfl

theorem finds_bounds {element : Ty} {bounds : List Expr} {values : List Value}
    (hform : n.form = .newArray element .bounds bounds) (hlength : bounds.length = values.length) (limit : Nat) :
    o.Finds n (n.foldBounds element values limit) := by
  have hcases := Bounds.ofValues_cases values
  unfold Expr.foldBounds
  split
  · exact .inl rfl
  · next h =>
    rw [h] at hcases
    refine finds_raise ?_ _ _
    rw [hform]
    exact fun hnil => hcases (by simpa [show bounds = [] from hnil] using hlength.symm)
  · next ls h =>
    rw [h] at hcases
    have harray : ∀ {total item}, (total ≠ 0 → element.IsDefault item) → ∀ id,
        o.Denotes n (.array ⟨id, element, ls, List.replicate total item⟩) := by
      intro total item hitem id
      refine .bounds hform rfl (hcases.trans hlength.symm) fun v hv => ?_
      obtain ⟨htotal, rfl⟩ := List.mem_replicate.1 hv
      exact hitem htotal
    split
    · exact .inl rfl
    · next total _ =>
      split
      · split
        · next hzero =>
          exact finds_constant (x := Value.array <$> ArrayOf.make element ls (List.replicate total .null))
            fun _ => harray (absurd hzero) _
        · obtain h | ⟨x, h, hx⟩ := elementDefault_cases element
          · rw [h]
            exact .inl rfl
          · rw [h]
            exact finds_constant (x := do
              let item ← x
              Value.array <$> ArrayOf.make element ls (List.replicate total item)) fun s => harray (fun _ => hx s) _
      · exact .inl rfl

theorem finds_element {receiver : Expr} {args : List Expr} {array : Value}
    (hform : n.form = .index receiver none args false) (hreceiver : o.facts.constantValue? receiver = some array)
    (indices : List Value) : o.Finds n (n.foldElement array indices) := by
  have hc : n.form.children ≠ [] := by rw [hform]; exact List.cons_ne_nil _ _
  unfold Expr.foldElement
  split
  · exact finds_raise hc _ _
  · split
    · split
      · exact .inl rfl
      · split
        · next item hitem =>
          exact finds_constant (x := pure item) fun _ => .element hform hreceiver (ArrayOf.mem_of_get? hitem)
        · exact finds_raise hc _ _
    · exact .inl rfl
  · exact .inl rfl

theorem finds_default {args : List Expr} (hform : n.form = .new none args) : o.Finds n n.foldDefault := by
  unfold Expr.foldDefault
  obtain h | ⟨x, h, hx⟩ := elementDefault_cases n.ty
  · rw [h]
    exact .inl rfl
  · rw [h]
    exact finds_constant fun s => .created hform (hx s)

theorem finds_converted {operand : Expr} {value : Value} (hform : n.form = .convert operand)
    (hvalue : o.facts.constantValue? operand = some value) (hfits : value.isCompatible n.ty = true) :
    o.Finds n (some <$> liftM (Expr.constant value n.ty)) :=
  finds_constant (x := pure value) fun _ => .converted hform hvalue hfits

/-- A node for which a leaf is found becomes the leaf. -/
theorem foldTo_reaches (hn : n ∈ st) {x : Build (Option Expr)} (hx : o.Finds n x)
    (hcomputed : n.form.isComputed = true) (hrule : ∀ again, o.rule again n cx = liftM x >>= foldTo n) :
    (o.logic E).reaches st (liftM x >>= foldTo n) (o.Settles cx n) := by
  obtain rfl | hx := hx
  · exact reaches_kept hn fun _ => quiet_of_pure hrule
  · refine (o.logic E).ofBind (Run.reaches_build (hx st)) fun st₁ _ found ⟨r, hfound, hr, hpredicts⟩ => ?_
    subst hfound
    refine (o.logic E).ofBind Run.reaches_record fun _ hst _ _ => ?_
    exact (o.logic E).ofPure fun _ hk => ⟨mem_of_le (hst.trans hk) hr, .folded hcomputed hpredicts.computes⟩

theorem predictNull_reaches (hcomputed : n.form.isComputed = true) (hc : n.form.children ≠ []) :
    (o.logic E).reaches st (predictNull n) (o.Settles cx n) := by
  refine reaches_recorded (P := o.Step n cx) ?_ fun _ => .nullDereference
  refine (o.logic E).ofImp (Run.reaches_build (raiseFor_builds (o := o) hc _ _)) ?_
  exact fun _ _ r ⟨hr, hpredicts⟩ => ⟨hr, .folded hcomputed hpredicts.computes⟩

include hE

theorem member_reaches (hn : n ∈ st) {m : Member} {values : List Value} (hknown : o.facts.Knows n.form.operands values)
    (hkind : (∃ args, n.form = .call none m args) ∨ n.form.isComputed = true)
    (hrule : ∀ again, o.rule again n cx = o.runMember n m values) :
    (o.logic E).reaches st (o.runMember n m values) (o.Settles cx n) := by
  refine (o.logic E).ofImp (runMember_reaches hE hn m values) ?_
  rintro st₁ _ r ⟨hr, ⟨rfl, w, fault, hw⟩ | ⟨callable, outcome, hc, hi, ha⟩⟩
  · exact ⟨hr, .kept (quiet_of_refused hrule hw)⟩
  · refine ⟨hr, ?_⟩
    obtain ⟨args, hform⟩ | hcomputed := hkind
    · rw [hform] at hknown
      exact .called hform hknown hc hi ha
    · obtain ⟨⟨w, hc⟩, w', hi⟩ := And.intro hc hi
      refine .folded hcomputed (.ran ⟨m, w, callable, w', hc, hi⟩ (fun v hv => ?_) ha)
      obtain ⟨c, hc, hv⟩ := exists_left_of_forall₂ hknown hv
      exact .known (Form.mem_children_of_operands hc) hv

end Optimizer

end TypedTree
