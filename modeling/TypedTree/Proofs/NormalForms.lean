import TypedTree.Proofs.Scope
import TypedTree.Proofs.ValueEquality
import TypedTree.Proofs.WellTyped

/-!
# Normal forms

A well-typed tree is in normal form when the rule for each of its nodes keeps the node (`Optimizer.Normal`). Every visit of
a well-typed tree gives a normal form (`Optimizer.Visits.normal`), although what a step makes is not visited again: throws,
constants and blocks are kept as they are, a branch was a normal form before, and handlers that are left have nothing more
to simplify.

Conditionals take more. Two that share a branch are merged when the rule sees the outer one, but the shared branch is found
by comparing structure, and a conditional may be merged or retyped afterwards. That nothing is left to merge then
(`Optimizer.Undecided`) rests on structural equality being symmetric and transitive on constants and defaults
(`Expr.equals_of_equals`), and on a discarded branch being a node of its own (`Optimizer.Undecided.retyped`).
-/

namespace TypedTree

/-! ### Equal constants and defaults -/

namespace Expr

variable {a b w : Expr} {st : Store}

/-- Two defaults of one type, or two constants of one type with values of the same structure. -/
def SameLeaf (a b : Expr) : Prop :=
  a.ty = b.ty ∧ ((a.form = .defaultOf ∧ b.form = .defaultOf) ∨
    ∃ v w, a.form = .constant v ∧ b.form = .constant w ∧ v.equals w = true)

theorem SameLeaf.symm (h : SameLeaf a b) : SameLeaf b a := by
  obtain ⟨hty, ⟨ha, hb⟩ | ⟨v, w, ha, hb, hvw⟩⟩ := h
  · exact ⟨hty.symm, .inl ⟨hb, ha⟩⟩
  · exact ⟨hty.symm, .inr ⟨w, v, hb, ha, Value.equals_symm hvw⟩⟩

theorem SameLeaf.trans (h : SameLeaf a b) (h' : SameLeaf b w) : SameLeaf a w := by
  obtain ⟨hty, ⟨ha, hb⟩ | ⟨u, v, ha, hb, huv⟩⟩ := h
  · obtain ⟨hty', ⟨_, hw⟩ | ⟨v, _, hb', _⟩⟩ := h'
    · exact ⟨hty.trans hty', .inl ⟨ha, hw⟩⟩
    · cases hb.symm.trans hb'
  · obtain ⟨hty', ⟨hb', _⟩ | ⟨v', x, hb', hw, hvx⟩⟩ := h'
    · cases hb.symm.trans hb'
    · cases hb.symm.trans hb'
      exact ⟨hty.trans hty', .inr ⟨u, x, ha, hw, Value.equals_trans huv hvx⟩⟩

/-- What equals a constant or a default is that node, or such a one with the same structure. -/
theorem equals_iff_sameLeaf (hw : w.form = .defaultOf ∨ ∃ v, w.form = .constant v) :
    a.equals w = true ↔ a.same w = true ∨ SameLeaf a w := by
  rw [equals_eq, SameLeaf, Bool.or_eq_true, Bool.and_eq_true, beq_iff_eq]
  obtain hw | ⟨v, hw⟩ := hw
  · rw [hw]
    cases a.form <;> simp [Form.map, Form.agree]
  · rw [hw]
    cases a.form <;> simp [Form.map, Form.agree]

/-- Expressions that equal the same constant or default are equal, provided that their identities are their own. -/
theorem equals_of_equals (ha : a ∈ st) (hb : b ∈ st) (hw : w ∈ st)
    (hleaf : w.form = .defaultOf ∨ ∃ v, w.form = .constant v) (h : a.equals w = true) (h' : b.equals w = true) :
    (b.form = .defaultOf ∨ ∃ v, b.form = .constant v) ∧ a.equals b = true := by
  rw [equals_iff_sameLeaf hleaf] at h h'
  obtain hbw | hbw := h'
  · obtain rfl := Store.eq_of_same hb hw hbw
    exact ⟨hleaf, (equals_iff_sameLeaf hleaf).2 h⟩
  · have hb' : b.form = .defaultOf ∨ ∃ v, b.form = .constant v :=
      hbw.2.imp (·.1) fun ⟨v, _, hv, _⟩ => ⟨v, hv⟩
    refine ⟨hb', (equals_iff_sameLeaf hb').2 (.inr ?_)⟩
    obtain haw | haw := h
    · obtain rfl := Store.eq_of_same ha hw haw
      exact hbw.symm
    · exact haw.trans hbw.symm

end Expr

/-- Forms that may have any type and have no rule. -/
def Form.isInert {α : Type} : Form α → Bool
  | .constant _ | .defaultOf | .throw _ | .block _ _ | .jump _ _ _ => true
  | _ => false

/-! ### Runs that count a change -/

namespace Optimizer

variable {σ κ : Type} {o : Optimizer σ κ} {cx : Context} {e n r : Expr}

theorem ends_counted {s s₁ : Progress σ} {k : Reduction} (hk : k ≠ .refused) (r : Expr) (hs₁ : s₁.tally = s.tally) :
    (do record k; return r : Run σ Expr).Ends s₁ (fun _ s' => s'.tally.total = s.tally.total + 1) fun _ => True := by
  refine Run.ends_bind (Run.ends_record ?_) fun _ _ h => Run.ends_pure h
  rw [← hs₁]
  exact Tally.total_record hk _

/-- A retyped expression in the place of a node counts as one change. -/
theorem ends_retyped {s : Progress σ} {k : Reduction} (hk : k ≠ .refused) (b : Expr) (ty : Ty) :
    (do let r ← b.retype ty; record k; return r : Run σ Expr).Ends s
      (fun _ s' => s'.tally.total = s.tally.total + 1) fun _ => True := by
  refine Run.ends_bind (Run.ends_fallible (fun _ _ _ => rfl) fun _ _ => trivial)
    (P := fun _ s' => s'.tally = s.tally) fun r s₁ hs₁ => ends_counted hk r hs₁

/-- A quiet rule does not count a change. -/
theorem Quiet.not_counted (h : o.Quiet cx n) {x : Run σ Expr} (hrule : ∀ again, o.rule again n cx = x) {s : Progress σ}
    (hx : x.Ends s (fun _ s' => s'.tally.total = s.tally.total + 1) fun _ => True) : False := by
  obtain ⟨s', hrun, ht⟩ := Run.still_run (h (fun _ _ => throw .exhausted) s.tally.total)
  rw [hrule] at hrun
  have := hx.of_eq hrun
  omega

/-! ### Conditionals that are kept -/

/-- Nothing is known of the test of the conditional `n`, and there is nothing to merge it with. -/
structure Undecided (o : Optimizer σ κ) (n test whenTrue whenFalse : Expr) : Prop where
  returns : o.facts.alwaysThrows test = false
  unknown : o.facts.truth? test = none
  apart : o.settings.flattening = true → ∀ innerTest innerTrue innerFalse,
    whenTrue.form = .conditional innerTest innerTrue innerFalse → ¬ Shares n whenTrue innerFalse whenFalse

variable {test whenTrue whenFalse : Expr}

theorem Undecided.quiet (h : o.Undecided n test whenTrue whenFalse)
    (hform : n.form = .conditional test whenTrue whenFalse) : o.Quiet cx n := by
  refine quiet_of_pure fun again => ?_
  rw [rule, hform]
  dsimp only
  rw [conditional, if_neg (by simp [h.returns]), h.unknown]
  dsimp only
  split
  · next hflat =>
    obtain ⟨heq, _⟩ | ⟨innerTest, innerTrue, innerFalse, htrue, hshares, _⟩ := flatten?_cases n test whenTrue whenFalse
    · rw [heq]
      rfl
    · exact absurd hshares (h.apart hflat _ _ _ htrue)
  · rfl

/-- The rule keeps a conditional only if there is nothing to do. -/
theorem undecided_of_quiet (s : Progress σ) (h : o.Quiet cx n) (hform : n.form = .conditional test whenTrue whenFalse) :
    o.Undecided n test whenTrue whenFalse := by
  have hrule : ∀ again, o.rule again n cx = o.conditional n test whenTrue whenFalse := fun again => by rw [rule, hform]
  have hreturns : o.facts.alwaysThrows test = false := by
    refine Bool.eq_false_of_not_eq_true fun ht => h.not_counted hrule (s := s) ?_
    rw [conditional, if_pos ht]
    exact ends_retyped (by simp) test n.ty
  have hunknown : o.facts.truth? test = none := by
    cases hv : o.facts.truth? test with
    | none => rfl
    | some taken =>
      refine (h.not_counted hrule (s := s) ?_).elim
      rw [conditional, if_neg (by simp [hreturns]), hv]
      exact ends_retyped (by simp) _ n.ty
  refine ⟨hreturns, hunknown, fun hflat => ?_⟩
  obtain ⟨_, hapart⟩ | ⟨_, _, _, _, _, heq⟩ := flatten?_cases n test whenTrue whenFalse
  · exact hapart
  · refine (h.not_counted hrule (s := s) ?_).elim
    rw [conditional, if_neg (by simp [hreturns]), hunknown]
    dsimp only
    rw [if_pos hflat, heq]
    refine Run.ends_bind (Run.ends_fresh ?_) (P := fun found s' => found.isSome = true ∧ s'.tally = s.tally) ?_
    · exact ⟨rfl, rfl⟩
    · rintro found s₁ ⟨hfound, hs₁⟩
      obtain ⟨flat, rfl⟩ := Option.isSome_iff_exists.1 hfound
      exact ends_counted (by simp) flat hs₁

open Store

variable {st : Store}

/-- A conditional whose branches are discarded has as little to merge as before. -/
theorem Undecided.retyped {a' b' : Expr} (h : o.Undecided e test whenTrue whenFalse) (hne : e.ty ≠ .void)
    (htrue : whenTrue.ty = e.ty) (hfalse : whenFalse.ty = e.ty) (howns : whenTrue.HasOwnType)
    (ha : Retyped .void whenTrue a') (hb : Retyped .void whenFalse b') (hnew : b' ∉ a'.form.children) (ha' : a' ∈ st)
    (hb' : b' ∈ st) : o.Undecided r test a' b' := by
  refine ⟨h.returns, h.unknown, ?_⟩
  rintro hflat innerTest innerTrue innerFalse hform ⟨_, hleaf, heq⟩
  have hmem : innerFalse ∈ a'.form.children := by rw [hform]; simp [Form.children]
  -- The second branch is not the very node in the first one, so the two have the same structure.
  have hsame : Expr.SameLeaf innerFalse b' := by
    obtain hid | hsame := (Expr.equals_iff_sameLeaf hleaf).1 heq
    · exact absurd (eq_of_same (child ha' hmem) hb' hid ▸ hmem) hnew
    · exact hsame
  have hleaf' : innerFalse.form = .defaultOf ∨ ∃ v, innerFalse.form = .constant v := by
    obtain ⟨hdefault, _⟩ | ⟨v, _, hv, _⟩ := hsame.2
    · exact .inl hdefault
    · exact .inr ⟨v, hv⟩
  obtain ⟨x, y, htrue', hy⟩ := ha.of_conditional (htrue ▸ hne) hform
  have hyty : y.ty = whenTrue.ty := (((Expr.hasOwnType_conditional htrue').1 howns).2.resolve_left (htrue ▸ hne)).2
  have hyform := hy.form_of_leaf hleaf'
  have hbform := hb.form_of_leaf hleaf
  refine h.apart hflat _ _ _ htrue' ⟨htrue, hbform ▸ hleaf, ?_⟩
  refine (Expr.equals_iff_sameLeaf (hbform ▸ hleaf)).2 (.inr ⟨?_, ?_⟩)
  · rw [hyty, htrue, hfalse]
  · rw [hyform, hbform]
    exact hsame.2

/-- Two conditionals that are merged into one leave nothing more to merge. -/
theorem Undecided.merged {innerTest innerTrue innerFalse both : Expr}
    (h : o.Undecided whenTrue innerTest innerTrue innerFalse) (hn : n ∈ st)
    (hform : n.form = .conditional test whenTrue whenFalse)
    (htrue : whenTrue.form = .conditional innerTest innerTrue innerFalse) (hty : whenTrue.ty = r.ty)
    (heq : innerFalse.equals whenFalse = true) (hreturns : o.facts.alwaysThrows both = false)
    (hunknown : o.facts.truth? both = none) : o.Undecided r both innerTrue whenFalse := by
  refine ⟨hreturns, hunknown, ?_⟩
  rintro hflat nextTest nextTrue nextFalse hnext ⟨hty', hleaf, heq'⟩
  have houter : ∀ c ∈ [test, whenTrue, whenFalse], c ∈ st := fun c hc => child hn (by rw [hform]; exact hc)
  have hinner : ∀ c ∈ [innerTest, innerTrue, innerFalse], c ∈ st :=
    fun c hc => child (houter whenTrue (by simp)) (by rw [htrue]; exact hc)
  have hnext' : nextFalse ∈ st := child (hinner innerTrue (by simp)) (by rw [hnext]; simp [Form.children])
  obtain ⟨hleaf', heq⟩ := Expr.equals_of_equals hnext' (hinner innerFalse (by simp)) (houter whenFalse (by simp)) hleaf
    heq' heq
  exact h.apart hflat _ _ _ hnext ⟨hty'.trans hty.symm, hleaf', heq⟩

/-! ### Normal forms -/

/-- The optimizer has its facts from the catalog, in which no parameter is only read; its evaluators answer alike each time,
and its hooks change nothing. -/
structure Regular (o : Optimizer σ κ) (c : Catalog) : Prop where
  facts : o.facts = c.facts
  writable : ∀ p, c.isReadOnly p = false
  steady : o.evaluators.Steady
  hooks : o.hooks = .none

/-- The tree is well typed, and the rule for each of its nodes keeps it. -/
def Normal (o : Optimizer σ κ) (e : Expr) : Prop := e.All fun a => a.HasOwnType ∧ o.Quiet .plain a

theorem Normal.wellTyped (h : o.Normal e) : e.WellTyped := h.mono fun _ h => h.1

theorem normal_of_inert (hr : r.form.isInert = true) (hc : ∀ c ∈ r.form.children, o.Normal c) : o.Normal r := by
  refine .node ⟨?_, quiet_of_pure fun again => ?_⟩ hc
  · rw [Expr.HasOwnType]
    cases hf : r.form <;> simp_all [Form.isInert]
  · rw [rule]
    cases hf : r.form <;> simp_all [Form.isInert]

theorem normal_of_leaf (h : r.IsLeaf) : o.Normal r := by
  cases h with
  | constant hf | defaultOf hf => exact normal_of_inert (by rw [hf]; rfl) (by rw [hf]; exact nofun)
  | throw hf hc =>
    refine normal_of_inert (by rw [hf]; rfl) ?_
    rw [hf]
    exact List.forall_mem_singleton.2 (normal_of_inert (by rw [hc]; rfl) (by rw [hc]; exact nofun))

theorem normal_of_conditional (h : o.Undecided n test whenTrue whenFalse)
    (hform : n.form = .conditional test whenTrue whenFalse) (htest : test.ty = .bool)
    (hty : n.ty = .void ∨ whenTrue.ty = n.ty ∧ whenFalse.ty = n.ty)
    (hc : ∀ c ∈ [test, whenTrue, whenFalse], o.Normal c) : o.Normal n := by
  exact .node ⟨(Expr.hasOwnType_conditional hform).2 ⟨htest, hty⟩, h.quiet hform⟩ (by rw [hform]; exact hc)

theorem normal_of_logical {op : Connective} {left right : Expr} (hform : n.form = .logical op left right)
    (hty : n.ty = .bool ∧ left.ty = .bool ∧ right.ty = .bool) (hreturns : o.facts.alwaysThrows left = false)
    (hunknown : o.facts.truth? left = none) (hc : ∀ c ∈ [left, right], o.Normal c) : o.Normal n := by
  refine .node ⟨by rw [Expr.HasOwnType, hform]; exact hty, quiet_of_pure fun again => ?_⟩ (by rw [hform]; exact hc)
  rw [rule, hform]
  dsimp only
  rw [logical, if_neg (by simp [hreturns]), hunknown]

variable {c : Catalog}

/-- A throw in the place of a node is kept. -/
theorem normal_of_throw {ty : Ty} {t : Expr} (ho : o.Regular c) (ht : o.facts.alwaysThrows t = true)
    (h : Retyped ty t r) (hc : o.Normal t) : o.Normal r := by
  rw [ho.facts] at ht
  obtain ⟨exception, hf⟩ := Catalog.throw_of_alwaysThrows ht
  have hr := h.throw_form hf
  refine normal_of_inert (by rw [hr]; rfl) fun d hd => hc.child ?_
  rw [hf, ← hr]
  exact hd

/-- **Retyping**: a normal form whose value is discarded stays one. -/
theorem normal_of_discarded (s : Progress σ) (h : Retyped .void e r) (hr : r ∈ st) (he : o.Normal e) : o.Normal r := by
  induction h with
  | same => exact he
  | constant _ _ _ _ hf => exact normal_of_leaf (.constant hf)
  | defaultOf _ _ _ _ hf => exact normal_of_leaf (.defaultOf hf)
  | throw _ hf _ hrf | jump _ hf _ hrf =>
    refine normal_of_inert (by rw [hrf]; rfl) fun c hc => he.child ?_
    rw [hf, ← hrf]
    exact hc
  | @conditional e r test a b a' b' hne hf ha hb hnew hty hrf iha ihb =>
    have hchild : ∀ c ∈ [test, a, b], o.Normal c := fun c hc => he.child (by rw [hf]; exact hc)
    have hmem : ∀ c ∈ [test, a', b'], c ∈ st := fun c hc => child hr (by rw [hrf]; exact hc)
    obtain ⟨htest, htypes⟩ := (Expr.hasOwnType_conditional hf).1 he.here.1
    obtain ⟨hta, htb⟩ := htypes.resolve_left hne
    have hundecided : o.Undecided r test a' b' :=
      (undecided_of_quiet s he.here.2 hf).retyped hne hta htb (hchild a (by simp)).here.1 ha hb
        (hnew rfl (htb ▸ hne)) (hmem a' (by simp)) (hmem b' (by simp))
    refine normal_of_conditional hundecided hrf htest (.inl hty) ?_
    simp only [List.mem_cons, List.not_mem_nil, or_false, forall_eq_or_imp, forall_eq]
    exact ⟨hchild test (by simp), iha (hmem a' (by simp)) (hchild a (by simp)),
      ihb (hmem b' (by simp)) (hchild b (by simp))⟩
  | @block e r last last' locals init _ hf _ _ hrf ih =>
    have hchild : ∀ c ∈ init ++ [last], o.Normal c := fun c hc => he.child (by rw [hf]; exact hc)
    have hmem : ∀ c ∈ init ++ [last'], c ∈ st := fun c hc => child hr (by rw [hrf]; exact hc)
    refine normal_of_inert (by rw [hrf]; rfl) ?_
    rw [hrf]
    simp only [Form.children, List.mem_append, List.mem_singleton]
    rintro c (hc | rfl)
    · exact hchild c (by simp [hc])
    · exact ih (hmem c (by simp)) (hchild last (by simp))
  | discarded _ _ _ _ hrf =>
    refine normal_of_inert (by rw [hrf]; rfl) ?_
    rw [hrf]
    exact List.forall_mem_singleton.2 he
  | converted _ _ hv => exact absurd rfl hv

/-! ### Steps and visits give normal forms -/

theorem isLeaf_of_isTrue (ho : o.Regular c) {a : Expr} (h : o.facts.isTrue a = true) : a.IsLeaf := by
  have hknown : a.constantValue?.bind Value.bool? = some true := by
    simpa [Facts.isTrue, Facts.truth?, ho.facts, Catalog.facts] using h
  cases hf : a.form with
  | constant v => exact .constant hf
  | defaultOf => exact .defaultOf hf
  | _ => simp [Expr.constantValue?, hf] at hknown

/-- A clause that is simplified has nothing more to simplify: a filter that always holds refers to no binding. -/
theorem Simplified.stable (ho : o.Regular c) {d clause : Clause Expr} (h : o.Simplified d clause) : o.Stable d where
  binding := by
    rw [hasUnusedBinding, h.binding]
    split
    · rfl
    · next hused =>
      cases hx : clause.binding with
      | none => rfl
      | some x =>
        obtain ⟨a, ha, hfree⟩ : ∃ a ∈ clause.children, Free x a := by
          simpa [hasUnusedBinding, hx, isFreeIn, mem_freeVars] using hused
        have ha' : a ∈ d.children := by
          rw [Clause.children, List.mem_append] at ha ⊢
          rw [h.body, h.filter]
          refine ha.imp_left fun ha => ?_
          split
          · next htrue =>
            have htrue : o.facts.isTrue a = true := by
              rw [Option.mem_toList] at ha
              simpa [Option.mem_def.1 ha] using htrue
            exact absurd hfree (isLeaf_of_isTrue ho htrue).not_free
          · exact ha
        simpa [isFreeIn, mem_freeVars] using ⟨a, ha', hfree⟩
  filter := by
    rw [h.filter]
    split
    · rfl
    · next hfilter => exact Bool.eq_false_of_not_eq_true hfilter
  alive := h.alive

/-- **One step**: the result for a node over normal forms is a normal form. -/
theorem Step.normal (ho : o.Regular c) (s : Progress σ) (h : o.Step n .plain r) (hn : n ∈ st) (hr : r ∈ st)
    (hty : n.HasOwnType) (hc : ∀ a ∈ n.form.children, o.Normal a) : o.Normal r := by
  cases h with
  | kept hquiet => exact .node ⟨hty, hquiet ho.steady⟩ hc
  | threw ht hrt => exact normal_of_throw ho ht.throws hrt (ht.all hc)
  | @threwAfter pre post t t' r hops hthrows _ hrt _ hform =>
    have hmem : ∀ a ∈ pre ++ t :: post, o.Normal a := fun a ha => hc a (Form.mem_children_of_operands (hops ▸ ha))
    refine normal_of_inert (by rw [hform]; rfl) ?_
    rw [hform]
    simp only [Form.children, List.mem_append, List.mem_filter, List.mem_singleton]
    rintro a (⟨ha, _⟩ | rfl)
    · exact hmem a (by simp [ha])
    · exact normal_of_throw ho hthrows hrt (hmem t (by simp))
  | called _ _ _ _ ha => exact normal_of_leaf ha.isLeaf
  | folded _ hc => exact normal_of_leaf hc.isLeaf
  | decided b => exact normal_of_leaf (.constant rfl)
  | branch hb hrt =>
    obtain hvoid | hsame := hb.ty_eq hty
    · rw [hvoid] at hrt
      exact normal_of_discarded s hrt hr (hc _ hb.mem)
    · rw [hrt.eq_of_ty hsame]
      exact hc _ hb.mem
  | defaulted _ _ _ _ hform => exact normal_of_leaf (.defaultOf hform)
  | @flattened test whenTrue whenFalse innerTest innerTrue innerFalse both r hform htrue _ hreturns hunknown hsame _ heq
      hbty hboth hrty hrform =>
    have houter : ∀ a ∈ [test, whenTrue, whenFalse], o.Normal a := fun a ha => hc a (by rw [hform]; exact ha)
    have hinner : ∀ a ∈ [innerTest, innerTrue, innerFalse], o.Normal a :=
      fun a ha => (houter whenTrue (by simp)).child (by rw [htrue]; exact ha)
    obtain ⟨htest, htypes⟩ := (Expr.hasOwnType_conditional hform).1 hty
    obtain ⟨htest', htypes'⟩ := (Expr.hasOwnType_conditional htrue).1 (houter whenTrue (by simp)).here.1
    have hnormal : o.Normal both := by
      refine normal_of_logical hboth ⟨hbty, htest, htest'⟩ hreturns hunknown ?_
      simpa using ⟨houter test (by simp), hinner innerTest (by simp)⟩
    have hundecided : o.Undecided r both innerTrue whenFalse := by
      refine (undecided_of_quiet s (houter whenTrue (by simp)).here.2 htrue).merged hn hform htrue
        (hsame.trans hrty.symm) heq ?_ ?_
      · rw [ho.facts]
        simp [Catalog.facts, Expr.isThrow, hboth]
      · rw [ho.facts]
        simp [Facts.truth?, Catalog.facts, Expr.constantValue?, hboth]
    refine normal_of_conditional hundecided hrform hbty ?_ ?_
    · rw [hrty]
      rw [hsame] at htypes'
      obtain hvoid | hinnerTy := htypes'
      · exact .inl hvoid
      · exact htypes.imp_right fun h => ⟨hinnerTy.1, h.2⟩
    · simpa using ⟨hnormal, hinner innerTrue (by simp), houter whenFalse (by simp)⟩
  | @simplified body r clauses kept cleanup onFault hform hsimplified hcollapse hrty hrform =>
    have hstable : ∀ d ∈ kept, o.Stable d := fun d hd => by
      obtain ⟨_, _, h⟩ := exists_of_sublistForall₂ hsimplified hd
      exact h.stable ho
    refine .node ⟨?_, quiet_of_pure fun again => ?_⟩ fun a ha => hc a ?_
    · rw [Expr.HasOwnType, hform] at hty
      rw [Expr.HasOwnType, hrform]
      exact hrty.trans hty
    · rw [rule, hrform]
      exact tryCatch_stable hstable hcollapse
    · rw [hrform] at ha
      rw [hform]
      exact mem_children_of_simplified hsimplified ha

/-- Where no parameter is only read, all contexts are plain. -/
theorem Regular.inContext_plain (ho : o.Regular c) (form : Form Expr) :
    o.facts.inContext .plain form = form.map (·, .plain) := by
  have hargs : ∀ (member : Option Member) (args : List Expr),
      o.facts.argContexts member args = args.map (·, .plain) := by
    intro member args
    have hfalse : o.facts.isReadOnly = fun _ => false := by rw [ho.facts]; exact funext ho.writable
    rw [← List.zipIdx_map_fst 0 args, List.map_map, Facts.argContexts, hfalse, List.zipIdx_map_fst]
    simp [Context.plain, Function.comp_def]
  cases form <;> simp only [Facts.inContext, Form.map, hargs]

/-- The sub-expressions of a node that is visited are visited in plain contexts. -/
theorem Regular.visited (ho : o.Regular c) {R : Expr × Context → Expr → Prop} {form form' : Form Expr}
    (hrel : Form.Rel R (o.facts.inContext .plain form) form') : Form.Rel (fun a b => R (a, .plain) b) form form' := by
  have hplain : Form.Rel (fun p b => p.2 = .plain ∧ R p b) (o.facts.inContext .plain form) form' := by
    refine hrel.imp fun p hp b h => ⟨?_, h⟩
    rw [ho.inContext_plain, Form.children_map] at hp
    obtain ⟨_, _, rfl⟩ := List.mem_map.1 hp
    rfl
  refine (o.facts.rel_of_inContext hplain).mono ?_
  rintro a b ⟨_, rfl, h⟩
  exact h

/-- **Visits**: a visit of a well-typed tree gives a normal form. -/
theorem Visits.normal (ho : o.Regular c) (s : Progress σ) (h : o.Visits cx e r) (hcx : cx = .plain) (he : e.WellTyped) :
    o.Normal r := by
  have htypes : ∀ {cx a b}, o.Visits cx a b → a.WellTyped → b.ty = a.ty :=
    fun h ha => (h.testsBoolean ha.testsBoolean).1
  induction h with
  | skipped hadmits =>
    rw [ho.hooks] at hadmits
    cases hadmits
  | @settled cx e n r R hR hrel hty hst hstep ih =>
    subst hcx
    obtain ⟨st, hn, hr⟩ := hst
    have hrel := ho.visited hrel
    have howns : n.HasOwnType := he.here.of_rel hty (hrel.imp fun a ha b h => htypes (hR _ _ h) (he.child ha))
    refine hstep.normal ho s hn hr howns fun b hb => ?_
    obtain ⟨a, ha, h⟩ := hrel.exists_left hb
    exact ih _ _ h rfl (he.child ha)
  | @inlined cx e n reduced r R hR hrel hty hin _ ih ihr =>
    subst hcx
    have hn : n.WellTyped := by
      refine wellTyped_of_rel he.here hty (ho.visited hrel) fun a ha b h => ?_
      exact ⟨htypes (hR _ _ h) (he.child ha), (ih _ _ h rfl (he.child ha)).wellTyped⟩
    exact ihr rfl (hin.wellTyped hn)

end Optimizer

end TypedTree
