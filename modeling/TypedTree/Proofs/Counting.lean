import TypedTree.Proofs.Plans
import TypedTree.Proofs.Typing
import TypedTree.Proofs.Weights

/-!
# What is counted is what changed

The tally of a run counts reductions, and the identity of a node tells whether it was left alone. The two agree. Every plan
either keeps the node and counts nothing, or counts something and makes a simpler tree of it (`Optimizer.carryOut_counts`); so
does a visit (`Optimizer.visit_counts`), since a node with simpler sub-expressions is simpler. As no tree is simpler than
itself, the result of a run is the very tree exactly when nothing was counted (`unchanged_iff_nothing_counted`).

How much a run counts depends on where it starts, so this is not said in a `Logic` but with a number: `Counts st x Q` says of
the runs of `x` what number they add to the total, along with the result.
-/

namespace TypedTree.Optimizer

open Store

/-! ### Runs with what they count -/

section

variable {σ α β : Type} {st : Store} {x : Run σ α} {Q : Store → Nat → α → Prop}

/-- From all states of the store, a run of `x` that gives a result adds a number to the total that is as `Q` says. -/
def Counts (st : Store) (x : Run σ α) (Q : Store → Nat → α → Prop) : Prop :=
  ∀ s, st.Within s.nodes → x.Ends s (fun a s' => ∃ st' k, st ≤ st' ∧ st'.Within s'.nodes ∧
    s'.tally.total = s.tally.total + k ∧ Q st' k a) fun _ => True

theorem Counts.imp {P : Store → Nat → α → Prop} (h : Counts st x P)
    (hQ : ∀ st' k a, st ≤ st' → P st' k a → Q st' k a) : Counts st x Q := by
  intro s hs
  apply (h s hs).imp
  rintro a s' ⟨st', k, hst, hs', hk, hP⟩
  exact ⟨st', k, hst, hs', hk, hQ st' k a hst hP⟩

/-- What is known of the results of a run is known along with what it counts. -/
theorem Counts.and {P : α → Prop} (h : Counts st x Q) (hP : (running fun _ => True).reaches st x fun _ a => P a) :
    Counts st x fun st' k a => Q st' k a ∧ P a := by
  intro s hs
  cases h s hs with
  | result hx hQ =>
    obtain ⟨st', k, hst, hs', hk, hQ⟩ := hQ
    obtain ⟨_, _, _, hP⟩ := (hP st le_rfl s hs).of_eq hx
    exact .result hx ⟨st', k, hst, hs', hk, hQ, hP⟩
  | halted hx => exact .halted hx trivial

theorem counts_pure {a : α} (h : Q st 0 a) : Counts st (pure a : Run σ α) Q :=
  fun _ hs => Run.ends_pure ⟨st, 0, le_rfl, hs, rfl, h⟩

theorem counts_throw {halt : Halt} : Counts st (throw halt : Run σ α) Q := fun _ _ => Run.ends_throw trivial

theorem counts_bind {f : α → Run σ β} {P : Store → Nat → α → Prop} {Q : Store → Nat → β → Prop} (hx : Counts st x P)
    (hf : ∀ st' k a, st ≤ st' → P st' k a → Counts st' (f a) fun st'' l b => Q st'' (k + l) b) :
    Counts st (x >>= f) Q := by
  intro s hs
  apply Run.ends_bind (hx s hs)
  rintro a s₁ ⟨st₁, k, hst₁, hs₁, hk, hP⟩
  apply (hf st₁ k a hst₁ hP s₁ hs₁).imp
  rintro b s₂ ⟨st₂, l, hst₂, hs₂, hl, hQ⟩
  exact ⟨st₂, k + l, hst₁.trans hst₂, hs₂, by omega, hQ⟩

theorem counts_record {r : Reduction} {Q : Store → Nat → Unit → Prop} (hr : r ≠ .refused) (h : Q st 1 ()) :
    Counts st (record r : Run σ Unit) Q :=
  fun s hs => Run.ends_record ⟨st, 1, le_rfl, hs, Tally.total_record hr s.tally, h⟩

theorem counts_refused {Q : Store → Nat → Unit → Prop} (h : Q st 0 ()) : Counts st (record .refused : Run σ Unit) Q :=
  fun _ hs => Run.ends_record ⟨st, 0, le_rfl, hs, rfl, h⟩

variable {P : Store → α → Prop}

theorem counts_fresh {x : Fresh .node α} (h : making.reaches st x P) :
    Counts st (liftM x : Run σ α) fun st' k a => k = 0 ∧ P st' a := by
  intro s hs
  obtain ⟨st', hst, hs', hP⟩ := h st le_rfl s.nodes hs
  exact Run.ends_fresh ⟨st', 0, hst, hs', rfl, rfl, hP⟩

theorem counts_build {x : Build α} (h : building.reaches st x P) :
    Counts st (liftM x : Run σ α) fun st' k a => k = 0 ∧ P st' a := by
  intro s hs
  obtain ⟨st', hst, hs', hP⟩ := h st le_rfl ⟨s.nodes, s.world.references⟩ hs
  exact Run.ends_build ⟨st', 0, hst, hs', rfl, rfl, hP⟩

theorem counts_fallible {x : Fallible α} (h : attempting.reaches st x P) :
    Counts st (liftM x : Run σ α) fun st' k a => k = 0 ∧ P st' a := by
  intro s hs
  refine Run.ends_fallible (fun a nodes hx => ?_) fun _ _ => trivial
  obtain ⟨st', hst, hs', hP⟩ := h st le_rfl s.nodes hs a nodes hx
  exact ⟨st', 0, hst, hs', rfl, rfl, hP⟩

theorem counts_effect (x : Effect σ α) : Counts st (liftM x : Run σ α) fun _ k a => k = 0 ∧ ∃ w, (x w).1 = a :=
  fun s hs => Run.ends_effect ⟨st, 0, le_rfl, hs, rfl, rfl, s.world, rfl⟩

/-- A part that counts nothing comes first. -/
theorem counts_seq {f : α → Run σ β} {Q : Store → Nat → β → Prop} (hx : Counts st x fun st' k a => k = 0 ∧ P st' a)
    (hf : ∀ st' a, st ≤ st' → P st' a → Counts st' (f a) Q) : Counts st (x >>= f) Q := by
  apply counts_bind hx
  rintro st' k a hst ⟨rfl, hP⟩
  simpa only [Nat.zero_add] using hf st' a hst hP

/-- There is less of `first` in the one list than in the other, or as much and less of `second`. -/
def Lighter (first second : β → Nat) (bs cs : List β) : Prop :=
  (bs.map first).sum < (cs.map first).sum ∨
    (bs.map first).sum = (cs.map first).sum ∧ (bs.map second).sum < (cs.map second).sum

/-- **Mapping a list**: if each result is the old one and nothing was counted, or is lighter and something was, then so are the
results together. -/
theorem counts_mapM {f : α → Run σ β} {M : Store → β → Prop} (hM : ∀ {st st' b}, st ≤ st' → M st b → M st' b) (old : α → β)
    (first second : β → Nat) (as : List α) (h : ∀ a ∈ as, ∀ st', st ≤ st' → Counts st' (f a) fun st'' k b => M st'' b ∧
      (k = 0 ∧ b = old a ∨ 0 < k ∧ (first b < first (old a) ∨ first b = first (old a) ∧ second b < second (old a)))) :
    Counts st (as.mapM f) fun st' k bs => (∀ b ∈ bs, M st' b) ∧
      (k = 0 ∧ bs = as.map old ∨ 0 < k ∧ Lighter first second bs (as.map old)) := by
  induction as generalizing st with
  | nil =>
    rw [List.mapM_nil]
    exact counts_pure ⟨List.forall_mem_nil _, .inl ⟨rfl, rfl⟩⟩
  | cons a as ih =>
    rw [List.mapM_cons]
    apply counts_bind (h a List.mem_cons_self st le_rfl)
    rintro st₁ k b hst₁ ⟨hb, hcount⟩
    apply counts_bind (ih fun a' ha' st' hst' => h a' (List.mem_cons_of_mem _ ha') st' (hst₁.trans hst'))
    rintro st₂ l bs hst₂ ⟨hbs, hcounts⟩
    refine counts_pure ⟨List.forall_mem_cons.2 ⟨hM hst₂ hb, hbs⟩, ?_⟩
    rcases hcount with ⟨rfl, rfl⟩ | ⟨hk, hless⟩ <;> rcases hcounts with ⟨rfl, rfl⟩ | ⟨hl, hless'⟩
    · exact .inl ⟨rfl, rfl⟩
    all_goals
      refine .inr ⟨by omega, ?_⟩
      simp only [Lighter, List.map_cons, List.sum_cons] at *
      omega

/-- Mapping a form counts what mapping the list of its sub-expressions counts. -/
theorem counts_mapM_form {f : α → Run σ β} {form : Form α} {Q : Store → Nat → List β → Prop}
    (h : Counts st (form.children.mapM f) Q) :
    Counts st (form.mapM f) fun st' k form' => Q st' k form'.children ∧ Form.Rel (fun _ _ => True) form form' := by
  intro s hs
  have hlist := h s hs
  rw [← Form.children_mapM, map_eq_pure_bind] at hlist
  have hshape : (Run.halting fun _ => True).reaches .now (form.mapM f)
      fun _ form' => Form.Rel (fun _ _ => True) form form' := by
    refine Form.mapM_reaches _ (R := fun _ (_ : α) (_ : β) => True) (fun _ _ _ _ _ h => h) ?_
    intro a _ _ _ _ _ s _
    cases hfa : f a s with
    | ok b s' => exact .result hfa ⟨.now, trivial, trivial, trivial⟩
    | error halt s' => exact .halted hfa trivial
  cases hrun : form.mapM f s with
  | error halt s' => exact .halted hrun trivial
  | ok form' s' =>
    have hchildren : (form.mapM f >>= fun form' => pure form'.children) s = .ok form'.children s' := by
      simp only [bind, EStateM.bind, hrun]
      rfl
    obtain ⟨st', k, hst, hs', hk, hQ⟩ := hlist.of_eq hchildren
    obtain ⟨_, _, _, hrel⟩ := (hshape .now le_rfl s trivial).of_eq hrun
    exact .result hrun ⟨st', k, hst, hs', hk, hQ, hrel⟩

end

/-! ### What takes the place of a node is simpler -/

section

variable {σ κ : Type} {o : Optimizer σ κ} {n r : Expr}

theorem work_of_operands {form : Form Expr} (h : form.operands ≠ []) : form.work = 1 := by
  cases form <;> simp [Form.operands] at h <;> rfl

theorem work_of_computed {form : Form Expr} (h : form.isComputed = true) : 0 < form.work + form.conversions := by
  cases form <;> simp [Form.isComputed, Form.work, Form.conversions] at h ⊢

theorem simpler_of_child {a : Expr} (ha : a ∈ n.form.children) (hn : 0 < n.form.work) (hr : Retyped n.ty a r) :
    r.Simpler n := by
  have hchild := Expr.work_child ha
  have hwork := hr.work_eq
  exact .inl (by omega)

/-- A node with lighter parts is simpler. -/
theorem simpler_of_parts {e : Expr} {form : Form Expr} (hshape : Form.Rel (fun _ _ => True) e.form form)
    (hform : Form.Rel (· = ·) form n.form) (h : Lighter Expr.work Expr.conversions form.children e.form.children) :
    n.Simpler e := by
  have hwork : n.form.work = e.form.work := (hshape.work_eq.trans hform.work_eq).symm
  have hconversions : n.form.conversions = e.form.conversions := (hshape.conversions_eq.trans hform.conversions_eq).symm
  have hparts : form.children = n.form.children := List.forall₂_eq_eq_eq ▸ hform.children
  rw [hparts, Lighter] at h
  rw [Expr.Simpler, Expr.work_of_form (e := n) rfl, Expr.work_of_form (e := e) rfl, Expr.conversions_of_form (e := n) rfl,
    Expr.conversions_of_form (e := e) rfl]
  omega

theorem Throws.exists {t : Expr} {st : Store} (h : o.Throws n t) (hn : n ∈ st) : t ∈ st := by
  rcases h.mem with ht | ⟨callee, args, params, hf, hc, _⟩
  · exact child hn ht
  · refine child (child hn (c := callee) (by rw [hf]; exact List.mem_cons_self)) ?_
    rw [hc]
    exact List.mem_cons_self

theorem Throws.busy {t : Expr} (h : o.Throws n t) : 0 < n.form.work + n.form.conversions := by
  cases h with
  | operand hops => rw [work_of_operands (by rw [hops]; simp)]; omega
  | conditional hf | logical hf | switch hf | caseTest hf | typeTest hf | convert hf | body hf =>
    rw [hf]
    simp [Form.work, Form.conversions]

/-- A throw weighs what it weighed before, and something around it is gone. -/
theorem Throws.simpler (hraise : ∀ {t}, o.facts.alwaysThrows t = true → ∃ exception, t.form = .throw exception)
    {t : Expr} (h : o.Throws n t) (hr : Retyped n.ty t r) : r.Simpler n := by
  obtain ⟨exception, hform⟩ := hraise h.throws
  have hwork : r.work = t.work := hr.work_eq
  have hconversions : r.conversions = t.conversions := by
    rw [Expr.conversions_of_form (hr.throw_form hform), Expr.conversions_of_form hform]
  have hbusy := h.busy
  unfold Expr.Simpler
  rcases h.mem with ht | ⟨callee, args, params, hf, hc, _⟩
  · have := Expr.work_child ht
    have := Expr.conversions_child ht
    omega
  · have hcallee : callee ∈ n.form.children := by rw [hf]; exact List.mem_cons_self
    have ht : t ∈ callee.form.children := by rw [hc]; exact List.mem_cons_self
    have := Expr.work_child hcallee
    have := Expr.work_child ht
    have : n.form.work = 1 := by rw [hf]; rfl
    omega

theorem Chooses.simpler {b : Expr} (h : o.Chooses n b) (hr : Retyped n.ty b r) : r.Simpler n := by
  refine simpler_of_child h.mem ?_ hr
  cases h with
  | conditional hf | logical hf | case hf | fallback hf | body hf =>
    rw [hf]
    simp [Form.work]

theorem threwAfter_simpler {pre post : List Expr} {t t' : Expr} {keep : Expr → Bool}
    (hops : n.form.operands = pre ++ t :: post) (ht : Retyped n.ty t t')
    (hform : r.form = .block [] (pre.filter keep ++ [t'])) : r.Simpler n := by
  have hkept : ((pre.filter keep).map Expr.work).sum ≤ (pre.map Expr.work).sum :=
    ((List.filter_sublist ..).map _).sum_le_sum (by simp)
  have hoperands : (n.form.operands.map Expr.work).sum ≤ (n.form.children.map Expr.work).sum :=
    (n.form.operands_sublist.map _).sum_le_sum (by simp)
  have hn : n.work = 1 + (n.form.children.map Expr.work).sum := by
    rw [Expr.work_of_form (e := n) rfl, work_of_operands (by rw [hops]; simp)]
  have hr : r.work = ((pre.filter keep).map Expr.work).sum + t.work := by
    simp [Expr.work_of_form hform, Form.work, Form.children, ht.work_eq]
  rw [hops] at hoperands
  simp only [List.map_append, List.map_cons, List.sum_append, List.sum_cons] at hoperands
  exact .inl (by omega)

/-- A conditional and a connective weigh less than two conditionals. -/
theorem merged_simpler {test whenTrue whenFalse innerTest innerTrue innerFalse both : Expr}
    (hform : n.form = .conditional test whenTrue whenFalse)
    (htrue : whenTrue.form = .conditional innerTest innerTrue innerFalse) (hboth : both.form = .logical .and test innerTest)
    (hr : r.form = .conditional both innerTrue whenFalse) : r.Simpler n := by
  refine .inl ?_
  simp only [Expr.work_of_form hr, Expr.work_of_form hboth, Expr.work_of_form hform, Expr.work_of_form htrue, Form.work,
    Form.children, List.map_cons, List.map_nil, List.sum_cons, List.sum_nil]
  omega

/-- What inlining makes weighs no more than the body, so the invocation is gone. -/
theorem Inlines.simpler {reduced : Expr} (h : o.Inlines n reduced) : reduced.Simpler n := by
  obtain ⟨callee, params, body, args, _, b, hform, hcallee, _, ⟨_, _, s, hlit, hsub⟩, hr⟩ := h
  have hliterals : ∀ q ∈ s, q.2.work = 0 := by
    intro q hq
    obtain ⟨p, _, _, value, c, _, _, hc, hrl⟩ := exists_left_of_forall₂ hlit hq
    rw [hrl.work_eq, (Expr.IsLeaf.constant hc).work_eq]
  have hreduced : reduced.work ≤ body.work := hr.work_eq.trans_le (hsub.work_le hliterals)
  have hn : n.form.work + callee.work ≤ n.work := Expr.work_child (by rw [hform]; exact List.mem_cons_self)
  have hbody : callee.form.work + body.work ≤ callee.work := Expr.work_child (by rw [hcallee]; exact List.mem_cons_self)
  have : n.form.work = 1 := by rw [hform]; rfl
  exact .inl (by omega)

end

/-! ### Plans -/

section

variable {σ κ : Type} {o : Optimizer σ κ} {st : Store} {cx : Context} {n : Expr}

/-- `r` exists; it is `n` and nothing was counted, or it is simpler and something was. -/
def Lightens (n : Expr) (st : Store) (k : Nat) (r : Expr) : Prop := r ∈ st ∧ (k = 0 ∧ r = n ∨ 0 < k ∧ r.Simpler n)

theorem counts_kept (hn : n ∈ st) : Counts st (pure n : Run σ Expr) (Lightens n) := counts_pure ⟨hn, .inl ⟨rfl, rfl⟩⟩

/-- `r` exists and is simpler than `n`, and something was counted. -/
def Replaces (n : Expr) (st : Store) (k : Nat) (r : Expr) : Prop := r ∈ st ∧ 0 < k ∧ r.Simpler n

theorem Counts.lightens {x : Run σ Expr} (h : Counts st x (Replaces n)) : Counts st x (Lightens n) :=
  h.imp fun _ _ _ _ h => ⟨h.1, .inr h.2⟩

theorem counts_recorded {x : Run σ Expr} (hx : Counts st x fun st' k r => k = 0 ∧ r ∈ st' ∧ r.Simpler n)
    (why : Expr → Reduction) (hwhy : ∀ r, why r ≠ .refused) :
    Counts st (do let r ← x; record (why r); return r) (Replaces n) := by
  apply counts_seq hx
  rintro st₁ r _ ⟨hr, hsimpler⟩
  apply counts_bind (P := fun st' k _ => st' = st₁ ∧ k = 1) (counts_record (hwhy r) ⟨rfl, rfl⟩)
  rintro _ _ _ _ ⟨rfl, rfl⟩
  exact counts_pure ⟨hr, by omega, hsimpler⟩

theorem recordFold_why (r : Expr) : (if r.isThrow then Reduction.threw else .folded) ≠ .refused := by
  split <;> simp

/-- A retyped part in the place of the node. -/
theorem counts_put {a : Expr} (ha : a ∈ st) (h : ∀ r, Retyped n.ty a r → r.Simpler n) {why : Reduction}
    (hwhy : why ≠ .refused) : Counts st (do let r ← a.retype n.ty; record why; return r : Run σ Expr) (Replaces n) := by
  refine counts_recorded ?_ (fun _ => why) fun _ => hwhy
  apply (counts_fallible (a.retype_reaches n.ty ha)).imp
  rintro st' k r _ ⟨hk, hr, hretyped, _⟩
  exact ⟨hk, hr, h r hretyped⟩

/-- A leaf in the place of the node. -/
theorem counts_folded {x : Run σ Expr} (hn : 0 < n.form.work + n.form.conversions)
    (hx : Counts st x fun st' k r => k = 0 ∧ r ∈ st' ∧ r.IsLeaf) :
    Counts st (x >>= fun r => foldTo n (some r)) (Lightens n) := by
  refine (counts_recorded (hx.imp ?_) _ recordFold_why).lightens
  rintro st' k r _ ⟨hk, hr, hleaf⟩
  exact ⟨hk, hr, hleaf.simpler hn⟩

theorem propagateThrow_counts {operands : List Expr} (hops : n.form.operands = operands) (hmem : ∀ e ∈ operands, e ∈ st)
    (h : (Operands.analyze o.facts operands).throws = true) :
    Counts st (o.propagateThrow n operands (Operands.analyze o.facts operands)) (Lightens n) := by
  obtain ⟨⟨position, t⟩, ht⟩ := Option.isSome_iff_exists.1 h
  obtain ⟨pre, post, rfl, rfl, _, hthrow, _⟩ := Operands.analyze_thrower ht
  unfold propagateThrow
  simp only [ht, List.take_left]
  apply counts_seq (counts_fallible (t.retype_reaches n.ty (hmem t (by simp))))
  rintro st₁ t' hst₁ ⟨ht', hretyped, _⟩
  split
  · have hmem : t ∈ n.form.children := Form.mem_children_of_operands (by rw [hops]; simp)
    have hwork : n.form.work = 1 := work_of_operands (by rw [hops]; simp)
    refine (counts_recorded ?_ (fun _ => .threw) (by simp)).lightens
    exact counts_pure ⟨rfl, ht', simpler_of_child hmem (by omega) hretyped⟩
  · have hparts : ∀ c ∈ pre.filter (!o.facts.isPure ·) ++ [t'], c ∈ st₁ := by
      intro c hc
      rcases List.mem_append.1 hc with hc | hc
      · exact mem_of_le hst₁ (hmem c (by simp [(List.mem_filter.1 hc).1]))
      · exact List.mem_singleton.1 hc ▸ ht'
    refine (counts_recorded ?_ (fun _ => .threw) (by simp)).lightens
    refine Counts.imp (counts_fresh (Expr.make_reaches hparts (by simp [Form.clauses]))) ?_
    rintro st₂ k r _ ⟨hk, hr, _, _, hform⟩
    exact ⟨hk, hr, threwAfter_simpler hops hretyped hform⟩

theorem outcomeFor_counts (outcome : Except Exception Value) :
    Counts st (liftM (n.outcomeFor outcome) : Run σ Expr) fun st' k r => k = 0 ∧ r ∈ st' ∧ r.IsLeaf :=
  (counts_fallible (outcomeFor_attempts outcome)).imp fun _ _ _ _ ⟨hk, hr, ha⟩ => ⟨hk, hr, ha.isLeaf⟩

theorem compile?_counts (m : Member) : Counts st (o.compile? m) fun _ k _ => k = 0 := by
  apply counts_seq (counts_effect _)
  intro st₁ answer _ _
  cases answer with
  | ok callable => exact counts_pure rfl
  | error fault => exact counts_bind (counts_refused (Q := fun _ k _ => k = 0) rfl) fun _ _ _ _ hk => counts_pure hk

theorem runMember_counts (hn : n ∈ st) (hbusy : 0 < n.form.work + n.form.conversions) (m : Member) (values : List Value) :
    Counts st (o.runMember n m values) (Lightens n) := by
  apply counts_seq ((compile?_counts m).imp (Q := fun _ k _ => k = 0 ∧ True) fun _ _ _ _ hk => ⟨hk, trivial⟩)
  intro st₁ answer hst₁ _
  cases answer with
  | none => exact counts_kept (mem_of_le hst₁ hn)
  | some callable =>
    apply counts_seq (counts_effect _)
    intro st₂ outcome _ _
    exact counts_folded hbusy (outcomeFor_counts outcome)

theorem fold_counts (hn : n ∈ st) (hbusy : 0 < n.form.work + n.form.conversions) {x : Build (Option Expr)}
    (hx : o.Finds n x) : Counts st (liftM x >>= foldTo n : Run σ Expr) (Lightens n) := by
  rcases hx with rfl | hx
  · exact counts_kept hn
  · apply counts_seq (counts_build (hx st))
    rintro st₁ _ _ ⟨r, rfl, hr, hpredicts⟩
    exact counts_folded hbusy (counts_pure ⟨rfl, hr, hpredicts.isLeaf⟩)

theorem predictNull_counts (o : Optimizer σ κ) (hcomputed : n.form.isComputed = true) (hc : n.form.children ≠ []) :
    Counts st (predictNull n : Run σ Expr) (Lightens n) := by
  refine (counts_recorded ?_ (fun _ => .nullDereference) (by simp)).lightens
  refine Counts.imp (counts_build (raiseFor_builds (o := o) hc _ _)) ?_
  rintro st' k r _ ⟨hk, hr, hpredicts⟩
  exact ⟨hk, hr, hpredicts.isLeaf.simpler (work_of_computed hcomputed)⟩

theorem runAll_counts (hn : n ∈ st) (hbusy : 0 < n.form.work + n.form.conversions)
    (again : Expr → Context → Run σ Expr) (targets : List (Target Value)) (values : List Value) :
    Counts st (o.carryOut again n cx (.runAll targets values)) (Lightens n) := by
  apply counts_seq (counts_effect _)
  intro st₁ answer hst₁ _
  cases answer with
  | some outcome => exact counts_folded hbusy (outcomeFor_counts outcome)
  | none =>
    apply counts_seq (P := fun st' _ => st ≤ st') (counts_refused ⟨rfl, hst₁⟩)
    intro st₂ _ _ hst₂
    exact counts_kept (mem_of_le hst₂ hn)

theorem merge_counts (hn : n ∈ st) (again : Expr → Context → Run σ Expr) {test whenTrue whenFalse : Expr}
    (hform : n.form = .conditional test whenTrue whenFalse) :
    Counts st (o.carryOut again n cx (.merge test whenTrue whenFalse)) (Lightens n) := by
  rcases flatten?_cases n test whenTrue whenFalse with ⟨heq, _⟩ | ⟨innerTest, innerTrue, innerFalse, htrue, _, heq⟩
  · rw [carryOut, heq]
    exact counts_kept hn
  · rw [carryOut, heq]
    apply counts_seq (counts_fresh (merge_reaches hn hform htrue))
    rintro st₁ _ _ ⟨r, rfl, hr, both, _, hboth, _, hrform⟩
    refine (counts_recorded (x := pure r) ?_ (fun _ => .branch) (by simp)).lightens
    exact counts_pure ⟨rfl, hr, merged_simpler hform htrue hboth hrform⟩

theorem compareWith_counts (comparison : Option κ) (value test : Value) :
    Counts st (o.compareWith comparison value test) fun _ k _ => k = 0 ∧ True := by
  cases comparison with
  | none => exact counts_pure ⟨rfl, trivial⟩
  | some callable =>
    rw [compareWith_some, map_eq_pure_bind]
    exact counts_seq (counts_effect _) fun _ _ _ _ => counts_pure ⟨rfl, trivial⟩

/-- **Choosing a case**: the induction is on the tests that are left. -/
theorem selectCase_counts (hn : n ∈ st) (hwork : n.form.work = 1) {fallback : Option Expr} {tests : List (Expr × Expr)}
    (hfallback : ∀ b ∈ fallback, b ∈ n.form.children)
    (htests : ∀ p ∈ tests, p.1 ∈ n.form.children ∧ p.2 ∈ n.form.children) (comparison : Option κ) (value : Value) :
    Counts st (o.selectCase n comparison value fallback tests) (Lightens n) := by
  have hput : ∀ {st₁ a} {why : Reduction}, st ≤ st₁ → a ∈ n.form.children → why ≠ .refused →
      Counts st₁ (do let r ← a.retype n.ty; record why; return r : Run σ Expr) (Lightens n) := by
    intro st₁ a why hst ha hwhy
    exact (counts_put (mem_of_le hst (child hn ha)) (fun r hr => simpler_of_child ha (by omega) hr) hwhy).lightens
  induction tests generalizing st with
  | nil =>
    cases fallback with
    | some body => exact hput le_rfl (hfallback body rfl) (by simp)
    | none =>
      refine (counts_recorded ?_ (fun _ => .branch) (by simp)).lightens
      refine Counts.imp (counts_fresh (Expr.make_reaches (by simp [Form.children]) (by simp [Form.clauses]))) ?_
      rintro st' k r _ ⟨hk, hr, _, _, hform⟩
      exact ⟨hk, hr, (Expr.IsLeaf.defaultOf hform).simpler (by omega)⟩
  | cons p tests ih =>
    obtain ⟨test, body⟩ := p
    obtain ⟨htest, hbody⟩ := htests (test, body) List.mem_cons_self
    by_cases h₁ : o.facts.alwaysThrows test = true
    · simp only [selectCase, h₁, if_true]
      exact hput le_rfl htest (by simp)
    cases h₂ : o.facts.constantValue? test with
    | none =>
      simp only [selectCase, h₁, h₂, if_false, Bool.false_eq_true]
      exact counts_kept hn
    | some candidate =>
      rw [selectCase_cons (by simpa using h₁) h₂]
      apply counts_seq (compareWith_counts comparison value candidate)
      intro st₁ m hst₁ _
      rcases m with (_ | _) | e | _
      · exact ih (mem_of_le hst₁ hn) (fun q hq => htests q (List.mem_cons_of_mem _ hq)) fun hst => hput (hst₁.trans hst)
      · exact hput hst₁ hbody (by simp)
      · refine (counts_recorded ?_ _ recordFold_why).lightens
        refine Counts.imp (counts_fresh (Expr.throwValue_reaches _ _)) ?_
        rintro st' k r _ ⟨hk, hr, _, c, hf, hc, _⟩
        exact ⟨hk, hr, (Expr.IsLeaf.throw hf hc).simpler (by omega)⟩
      · exact counts_kept (mem_of_le hst₁ hn)

theorem select_counts (hn : n ∈ st) (again : Expr → Context → Run σ Expr) {value : Expr} {comparison : Option Member}
    {cases : List (Case Expr)} {fallback : Option Expr} (hform : n.form = .switch value comparison cases fallback)
    (known : Value) : Counts st (o.carryOut again n cx (.select comparison known (caseTests cases) fallback)) (Lightens n) := by
  have hselect : ∀ {st₁} (callable : Option κ), st ≤ st₁ →
      Counts st₁ (o.selectCase n callable known fallback (caseTests cases)) (Lightens n) := by
    intro st₁ callable hst
    refine selectCase_counts (mem_of_le hst hn) (by rw [hform]; rfl) ?_ ?_ callable known
    · intro b hb
      rw [hform]
      simp [Form.children, Option.mem_def.1 hb]
    · rintro ⟨test, body⟩ hp
      rw [hform]
      exact mem_of_caseTests hp
  cases comparison with
  | none => exact hselect none le_rfl
  | some m =>
    apply counts_seq ((compile?_counts m).imp (Q := fun _ k _ => k = 0 ∧ True) fun _ _ _ _ hk => ⟨hk, trivial⟩)
    intro st₁ answer hst₁ _
    cases answer with
    | none => exact counts_kept (mem_of_le hst₁ hn)
    | some callable => exact hselect (some callable) hst₁

/-- What inlining made is visited in its turn, and whatever comes of that is simpler than the invocation. -/
theorem inline_counts (hn : n ∈ st) {again : Expr → Context → Run σ Expr} (hagain : ∀ st' reduced, st ≤ st' →
      reduced ∈ st' → o.Inlines n reduced → Counts st' (again reduced cx) (Lightens reduced))
    {callee body : Expr} {params : List Var} {args : List Expr} {values : List Value} (hform : n.form = .invoke callee args)
    (hcallee : callee.form = .lambda params body) (hknown : o.facts.Knows args values) :
    Counts st (o.carryOut again n cx (.inline params body args)) (Lightens n) := by
  have hbody : body ∈ st := mem_body_of_invoke hn hform hcallee
  apply counts_seq (counts_fresh (inline?_reaches o.facts hbody))
  intro st₁ found hst₁ hfound
  cases found with
  | none => exact counts_kept (mem_of_le hst₁ hn)
  | some r =>
    obtain ⟨hr, hinlined⟩ := hfound r rfl
    apply counts_seq (counts_fallible (r.retype_reaches n.ty hr))
    rintro st₂ reduced hst₂ ⟨hreduced, hretyped, _⟩
    apply counts_bind (P := fun st' k _ => st' = st₂ ∧ k = 1) (counts_record (by simp) ⟨rfl, rfl⟩)
    rintro _ _ _ _ ⟨rfl, rfl⟩
    have hinlines : o.Inlines n reduced := ⟨callee, params, body, args, values, r, hform, hcallee, hknown, hinlined, hretyped⟩
    apply (hagain _ reduced (hst₁.trans hst₂) hreduced hinlines).imp
    rintro st₃ k r' _ ⟨hr', ⟨_, rfl⟩ | ⟨_, hsimpler⟩⟩
    · exact ⟨hr', .inr ⟨by omega, hinlines.simpler⟩⟩
    · exact ⟨hr', .inr ⟨by omega, hsimpler.trans hinlines.simpler⟩⟩

end

/-! ### Handlers -/

section

variable {σ κ : Type} {o : Optimizer σ κ} {st : Store} {cx : Context} {n : Expr} {c : Clause Expr}

/-- A clause is kept and nothing is counted, or it gets lighter and something is. -/
theorem dropBinding_counts (hc : c ∈ st.clauses) : Counts st (dropBinding c : Run σ (Clause Expr)) fun st' k d =>
    d ∈ st'.clauses ∧ (k = 0 ∧ d = c ∨ 0 < k ∧ d.work < c.work) := by
  unfold dropBinding
  split
  · next h =>
    apply counts_seq (counts_fresh Clause.make_reaches)
    rintro st₁ d _ ⟨hd, _, _, hbinding, hfilter, hbody⟩
    apply counts_bind (P := fun st' k _ => st' = st₁ ∧ k = 1) (counts_record (by simp) ⟨rfl, rfl⟩)
    rintro _ _ _ _ ⟨rfl, rfl⟩
    refine counts_pure ⟨hd, .inr ⟨by omega, ?_⟩⟩
    obtain ⟨x, hx⟩ : ∃ x, c.binding = some x := by
      rw [hasUnusedBinding, Option.any_eq_true] at h
      exact h.imp fun _ => And.left
    simp [Clause.work, Clause.extras, Clause.children, hbinding, hfilter, hbody, hx]
  · exact counts_pure ⟨hc, .inl ⟨rfl, rfl⟩⟩

theorem dropFilter_counts (hc : c ∈ st.clauses) : Counts st (o.dropFilter c) fun st' k d =>
    d ∈ st'.clauses ∧ (k = 0 ∧ d = c ∨ 0 < k ∧ d.work < c.work) := by
  unfold dropFilter
  split
  · next h =>
    obtain ⟨f, hf⟩ : ∃ f, c.filter = some f := by
      rw [Option.any_eq_true] at h
      exact h.imp fun _ => And.left
    have hparts : c.withParts none c.body = Clause.make c.test c.binding none c.body := by
      simp [Clause.withParts, hf, Expr.sameOption]
    rw [hparts]
    apply counts_seq (counts_fresh Clause.make_reaches)
    rintro st₁ d _ ⟨hd, _, _, hbinding, hfilter, hbody⟩
    apply counts_bind (P := fun st' k _ => st' = st₁ ∧ k = 1) (counts_record (by simp) ⟨rfl, rfl⟩)
    rintro _ _ _ _ ⟨rfl, rfl⟩
    refine counts_pure ⟨hd, .inr ⟨by omega, ?_⟩⟩
    simp [Clause.work, Clause.extras, Clause.children, hbinding, hfilter, hbody, hf]
    omega
  · exact counts_pure ⟨hc, .inl ⟨rfl, rfl⟩⟩

/-- How much a clause weighs that may have been dropped. -/
def keptWork (found : Option (Clause Expr)) : Nat := (found.toList.map Clause.work).sum

theorem simplifyClause_counts (hc : c ∈ st.clauses) : Counts st (o.simplifyClause c) fun st' k found =>
    (∀ d ∈ found, d ∈ st'.clauses) ∧ (k = 0 ∧ found = some c ∨ 0 < k ∧ keptWork found < c.work) := by
  apply counts_bind (dropBinding_counts hc)
  rintro st₁ k₁ d _ ⟨hd, hcount⟩
  apply counts_bind (dropFilter_counts hd)
  rintro st₂ k₂ d' _ ⟨hd', hcount'⟩
  split
  · next h =>
    apply counts_bind (P := fun _ k _ => k = 1) (counts_record (by simp) rfl)
    rintro st₃ _ _ _ rfl
    refine counts_pure ⟨by simp, .inr ⟨by omega, ?_⟩⟩
    -- A dead clause has a filter, so it was not light.
    have hfilter : 0 < d'.work := by
      simp only [isDead, Bool.and_eq_true, Option.any_eq_true] at h
      obtain ⟨_, f, hf, _⟩ := h
      simp [Clause.work, Clause.extras, hf]
    have hempty : keptWork none = 0 := rfl
    rcases hcount with ⟨_, rfl⟩ | ⟨_, hless⟩ <;> rcases hcount' with ⟨_, rfl⟩ | ⟨_, hless'⟩ <;> omega
  · refine counts_pure ⟨by simpa using hd', ?_⟩
    have hsome : keptWork (some d') = d'.work := by simp [keptWork]
    rcases hcount with ⟨rfl, rfl⟩ | ⟨_, hless⟩ <;> rcases hcount' with ⟨rfl, rfl⟩ | ⟨_, hless'⟩
    · exact .inl ⟨rfl, rfl⟩
    all_goals exact .inr ⟨by omega, by omega⟩

theorem simplifyClauses_counts {cs : List (Clause Expr)} (hcs : ∀ c ∈ cs, c ∈ st.clauses) :
    Counts st (o.simplifyClauses cs) fun st' k kept => (∀ d ∈ kept, d ∈ st'.clauses) ∧
      (k = 0 ∧ kept = cs ∨ 0 < k ∧ (kept.map Clause.work).sum < (cs.map Clause.work).sum) := by
  have hwork : ∀ founds : List (Option (Clause Expr)),
      (founds.map keptWork).sum = ((founds.filterMap id).map Clause.work).sum := by
    intro founds
    induction founds with
    | nil => rfl
    | cons found founds ih => cases found <;> simp [keptWork, ih]
  refine counts_bind (counts_mapM (M := fun st' found => ∀ d ∈ found, d ∈ st'.clauses)
    (fun hst hM d hd => clause_mem_of_le hst (hM d hd)) some keptWork keptWork cs ?_) ?_
  · intro c hc st' hst'
    apply (simplifyClause_counts (clause_mem_of_le hst' (hcs c hc))).imp
    rintro _ _ found _ ⟨hM, hcount⟩
    exact ⟨hM, hcount.imp id fun h => ⟨h.1, .inl (by simpa [keptWork] using h.2)⟩⟩
  rintro st₁ k founds _ ⟨hmem, hcount⟩
  refine counts_pure ⟨?_, ?_⟩
  · intro d hd
    obtain ⟨found, hfound, rfl⟩ := List.mem_filterMap.1 hd
    exact hmem _ hfound d rfl
  · rcases hcount with ⟨rfl, rfl⟩ | ⟨hk, hless⟩
    · exact .inl ⟨rfl, by simp [List.filterMap_map]⟩
    · refine .inr ⟨hk, ?_⟩
      have hold : (cs.map some).filterMap id = cs := by simp [List.filterMap_map]
      simp only [Lighter, hwork, hold] at hless
      omega

/-- **Handlers**: clauses with the identities of the old ones are the old ones, so nothing was counted for them. -/
theorem tryCatch_counts (hn : n ∈ st) {body : Expr} {clauses : List (Clause Expr)} {cleanup onFault : Option Expr}
    (hform : n.form = .tryCatch body clauses cleanup onFault) :
    Counts st (o.tryCatch n body clauses cleanup onFault) (Lightens n) := by
  have hcs : ∀ c ∈ clauses, c ∈ st.clauses := fun c hc => st.clauses_mem hn (by rw [hform]; exact hc)
  have hbody : body ∈ n.form.children := by rw [hform]; simp [Form.children]
  have hwork : 0 < n.form.work := by rw [hform]; simp [Form.work]
  have hsimplify := (simplifyClauses_counts (o := o) hcs).and (P := fun kept => List.SublistForall₂ o.Simplified kept clauses)
    (Logic.ofImp _ (simplifyClauses_reaches hcs) fun _ _ _ h => h.2.1)
  apply counts_bind hsimplify
  rintro st₁ k kept hst₁ ⟨⟨hkept, hcount⟩, hsimplified⟩
  split
  · apply (counts_put (mem_of_le hst₁ (child hn hbody)) (fun r hr => simpler_of_child hbody hwork hr) (by simp)).imp
    rintro st₂ l r _ ⟨hr, hl, hsimpler⟩
    exact ⟨hr, .inr ⟨by omega, hsimpler⟩⟩
  split
  · next hids =>
    have heq : kept = clauses := eq_of_clause_ids hkept (fun c hc => clause_mem_of_le hst₁ (hcs c hc)) (by simpa using hids)
    rcases hcount with ⟨rfl, _⟩ | ⟨_, hless⟩
    · simpa only [Nat.zero_add] using counts_kept (mem_of_le hst₁ hn)
    · rw [heq] at hless
      omega
  · next hids =>
    rcases hcount with ⟨_, rfl⟩ | ⟨hk, hless⟩
    · simp at hids
    have hparts : ∀ e ∈ (Form.tryCatch body kept cleanup onFault).children, e ∈ st₁ := by
      intro e he
      exact mem_of_le hst₁ (child hn (by rw [hform]; exact mem_children_of_simplified hsimplified he))
    refine Counts.imp (counts_fresh (Expr.make_reaches hparts hkept)) ?_
    rintro st₂ l r _ ⟨_, hr, _, _, hrform⟩
    refine ⟨hr, .inr ⟨by omega, .inl ?_⟩⟩
    rw [Expr.work_of_tryCatch hrform, Expr.work_of_tryCatch hform]
    omega

end

/-! ### Rules and visits -/

section

variable {σ κ : Type} {o : Optimizer σ κ} {st : Store} {cx : Context} {n : Expr} {again : Expr → Context → Run σ Expr}

/-- The visits of a tree keep it and count nothing, or make a simpler tree of it and count something. -/
def Accounts (visit : Expr → Context → Run σ Expr) : Prop :=
  ∀ st e cx, e ∈ st → Counts st (visit e cx) (Lightens e)

variable (hraise : ∀ {t}, o.facts.alwaysThrows t = true → ∃ exception, t.form = .throw exception)

include hraise

/-- **Plans**: carrying one out keeps the node and counts nothing, or makes a simpler tree of it and counts something. -/
theorem carryOut_counts (hn : n ∈ st) (hagain : Accounts again) {plan : Plan} (hplan : o.Plans n plan) :
    Counts st (o.carryOut again n cx plan) (Lightens n) := by
  cases hplan with
  | keep => exact counts_kept hn
  | raise h => exact (counts_put (h.exists hn) (fun r hr => h.simpler hraise hr) (by simp)).lightens
  | take h => exact (counts_put (child hn h.mem) (fun r hr => h.simpler hr) (by simp)).lightens
  | propagate hops h =>
    refine propagateThrow_counts hops (fun e he => child hn (Form.mem_children_of_operands ?_)) h
    rw [hops]
    exact he
  | dereference hcomputed hc => exact predictNull_counts o hcomputed hc
  | run hkind =>
    refine runMember_counts hn ?_ _ _
    rcases hkind with ⟨args, hform⟩ | hcomputed
    · rw [hform]
      exact Nat.one_pos
    · exact work_of_computed hcomputed
  | runAll hcomputed => exact runAll_counts hn (work_of_computed hcomputed) _ _ _
  | fold hcomputed hfinds => exact fold_counts hn (work_of_computed hcomputed) hfinds
  | decide hform =>
    have hbusy : 0 < n.form.work + n.form.conversions := by rw [hform]; exact Nat.one_pos
    exact counts_folded hbusy (counts_pure ⟨rfl, st.boolean_mem _, .constant rfl⟩)
  | merge hform => exact merge_counts hn again hform
  | select hform _ _ _ => exact select_counts hn again hform _
  | inline hform hcallee hknown =>
    exact inline_counts hn (fun st' reduced _ hreduced _ => hagain st' reduced cx hreduced) hform hcallee hknown
  | handle hform => exact tryCatch_counts hn hform

theorem finish_counts (ho : o.hooks.Transparent) (hn : n ∈ st) (hagain : Accounts again) (e : Expr) :
    Counts st (o.finish again e n cx) (Lightens n) := by
  obtain ⟨plan, hplan, hrule⟩ := o.exists_rule_eq n cx
  unfold finish
  rw [hrule]
  apply counts_bind (carryOut_counts hraise hn hagain hplan)
  intro st₁ k r hst₁ hr
  split
  · exact counts_throw
  split
  · exact counts_pure hr
  · apply (counts_effect (o.hooks.after r)).imp
    rintro st₂ l _ hst₂ ⟨rfl, w, rfl⟩
    rw [ho.after]
    exact ⟨mem_of_le hst₂ hr.1, hr.2⟩

/-- **One pass**: a node with simpler sub-expressions is simpler, and one whose sub-expressions are kept is not made again. -/
theorem pass_counts (ho : o.hooks.Transparent) (hagain : Accounts again) : Accounts (o.pass again) := by
  intro st e
  induction e using Expr.inductionOn generalizing st with
  | node e ih =>
    intro cx he
    rw [pass_eq]
    apply counts_seq (counts_effect _)
    intro st₁ admitted hst₁ _
    split
    · apply counts_seq (counts_effect _)
      rintro st₂ _ hst₂ ⟨w, rfl⟩
      rw [ho.before]
      simp only [Expr.same, beq_self_eq_true, if_true]
      have hst : st ≤ st₂ := hst₁.trans hst₂
      have hold : (o.facts.inContext cx e.form).children.map Prod.fst = e.form.children := by
        rw [← Form.children_map, o.facts.map_fst_inContext]
      have hparts : Counts st₂ ((o.facts.inContext cx e.form).children.mapM fun p => o.pass again p.1 p.2) fun st' k parts =>
          (∀ c ∈ parts, c ∈ st') ∧
            (k = 0 ∧ parts = e.form.children ∨ 0 < k ∧ Lighter Expr.work Expr.conversions parts e.form.children) := by
        rw [← hold]
        refine counts_mapM (M := fun st c => c ∈ st) (fun hst hc => mem_of_le hst hc) Prod.fst Expr.work Expr.conversions _ ?_
        intro p hp st₃ hst₃
        have hc : p.1 ∈ e.form.children := o.facts.mem_of_inContext hp
        exact ih p.1 hc st₃ p.2 (mem_of_le (hst.trans hst₃) (child he hc))
      apply counts_bind (counts_mapM_form hparts)
      rintro st₃ k form hst₃ ⟨⟨hmem, hcount⟩, hrel⟩
      have hshape : Form.Rel (fun _ _ => True) e.form form :=
        (o.facts.rel_of_inContext hrel).mono fun _ _ _ => trivial
      have he₃ : e ∈ st₃ := mem_of_le (hst.trans hst₃) he
      rcases hcount with ⟨rfl, heq⟩ | ⟨hk, hless⟩
      · rw [Expr.rebuild_self heq.symm]
        simp only [Nat.zero_add]
        exact finish_counts hraise ho he₃ hagain e
      · apply counts_seq (counts_fresh (Expr.rebuild_reaches he₃ hshape hmem))
        rintro st₄ n hst₄ ⟨hn, _, hform⟩
        have hsimpler : n.Simpler e := simpler_of_parts hshape hform hless
        apply (finish_counts hraise ho hn hagain e).imp
        rintro st₅ l r _ ⟨hr, ⟨_, rfl⟩ | ⟨_, hr'⟩⟩
        · exact ⟨hr, .inr ⟨by omega, hsimpler⟩⟩
        · exact ⟨hr, .inr ⟨by omega, hr'.trans hsimpler⟩⟩
    · exact counts_kept (mem_of_le hst₁ he)

theorem visitWithin_counts (ho : o.hooks.Transparent) {last : Expr → Context → Run σ Expr} (hlast : Accounts last)
    (fuel : Nat) : Accounts (o.visitWithin last fuel) := by
  induction fuel with
  | zero => exact pass_counts hraise ho hlast
  | succ fuel ih => exact pass_counts hraise ho ih

/-- **Visits** keep a tree and count nothing, or make a simpler tree of it and count something. -/
theorem visit_counts (ho : o.hooks.Transparent) : Accounts o.visit := by
  have hmade : Accounts o.visitMade := fun st e cx he =>
    visitWithin_counts hraise ho (fun _ _ _ _ => counts_throw) e.lambdaCount st e cx he
  exact visitWithin_counts hraise ho hmade o.hooks.allowance

end

end TypedTree.Optimizer

namespace TypedTree

open Store

/-! ### Nothing counted, nothing changed -/

/-- **Identity tells whether anything changed**: whatever the tree, the settings, the catalog and the evaluators, and with
hooks that replace nothing, a run that gives a result gives the very node exactly when it counts no reduction. -/
theorem unchanged_iff_nothing_counted {σ κ : Type} (catalog : Catalog) (evaluators : Evaluators σ κ) (hooks : Hooks σ)
    (settings : Settings) (hooks_transparent : hooks.Transparent) (e r : Expr) (s s' : Progress σ)
    (identified : e.Identified s.nodes) :
    let o : Optimizer σ κ := ⟨catalog.facts, evaluators, hooks, settings⟩
    o.optimize e s = .ok r s' → (r.same e = true ↔ s'.tally.total = 0) := by
  intro o hrun
  obtain ⟨st, hst, he⟩ := identified
  have hcounts : Optimizer.Counts st (if settings.level == .none then pure e else o.visit e .plain : Run σ Expr)
      (Optimizer.Lightens e) := by
    split
    · exact Optimizer.counts_kept he
    · exact Optimizer.visit_counts Catalog.throw_of_alwaysThrows hooks_transparent st e .plain he
  rw [Optimizer.optimize_run] at hrun
  split at hrun
  case h_2 => cases hrun
  case h_1 r₁ s₁ hvisit =>
    cases hrun
    obtain ⟨st', k, hst', _, hk, hr, hlightens⟩ := (hcounts (Optimizer.starting e s) hst).of_eq hvisit
    have htotal : (Optimizer.counted r s₁).tally.total = k := hk.trans (Nat.zero_add k)
    rw [htotal]
    constructor
    · intro hsame
      have heq : r = e := eq_of_same hr (mem_of_le hst' he) hsame
      rcases hlightens with ⟨hzero, _⟩ | ⟨_, hsimpler⟩
      · exact hzero
      · exact absurd heq hsimpler.ne
    · intro hzero
      rcases hlightens with ⟨_, rfl⟩ | ⟨hpos, _⟩
      · exact beq_self_eq_true _
      · omega

theorem unchanged_iff_nothing_counted_invokedTest :
    let e := (invokedTest ⟨0⟩).1
    let s : Progress Console := ⟨(invokedTest ⟨0⟩).2, ⟨⟨0⟩, .empty⟩, .empty⟩
    e.Identified s.nodes ∧ ∃ r s', Optimizer.bare.optimize e s = .ok r s' ∧ s'.tally.total = 2 ∧
      (r.same e = true ↔ s'.tally.total = 0) := by
  intro e s
  have identified : e.Identified s.nodes := Expr.identified_of_reaches invokedTest_reaches _
  have hok : Run.passes (fun _ s' => s'.tally.total == 2) (Optimizer.bare.optimize e s) = true := by decide +kernel
  obtain ⟨r, s', hrun, htotal⟩ := Run.exists_of_passes hok
  refine ⟨identified, r, s', hrun, by simpa using htotal, ?_⟩
  exact unchanged_iff_nothing_counted .empty Registry.empty.natives .none .standard Hooks.none_transparent e r s s' identified
    hrun

end TypedTree
