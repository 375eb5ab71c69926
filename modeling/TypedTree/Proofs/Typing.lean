import TypedTree.Proofs.Lambdas

/-!
# Visits keep the static type

Every step gives its result the static type of the node, whatever types the sub-expressions have; only type tests need to
be of type `bool`, because they are replaced by the two truth values, which are. So the check after each rule never fails
for a tree in which type tests are of type `bool` (`Expr.TestsBoolean`), and all results are such trees again. That a visit
does what `Optimizer.Visits` says is proved along with it (`Optimizer.visit_sound`), since it takes the check to know that a
run went on.
-/

namespace TypedTree

/-- Every type test of the tree is of type `bool`. -/
def Expr.TestsBoolean (e : Expr) : Prop :=
  e.All fun a => ∀ operand target mode, a.form = .typeTest operand target mode → a.ty = .bool

/-- The hooks replace nothing; they may keep nodes from being changed. -/
structure Hooks.Transparent {σ : Type} (hooks : Hooks σ) : Prop where
  before (e : Expr) (w : World σ) : (hooks.before e w).1 = e
  after (e : Expr) (w : World σ) : (hooks.after e w).1 = e

theorem Form.Rel.typeTest_left {α β : Type} {R : α → β → Prop} {f : Form α} {b : β} {target : Ty} {mode : TestMode}
    (h : Form.Rel R f (.typeTest b target mode)) : ∃ a, f = .typeTest a target mode := by
  cases h
  exact ⟨_, rfl⟩

/-! ### Making nodes -/

section

variable {e n r : Expr}

theorem testsBoolean_of_form (hform : ∀ operand target mode, r.form ≠ .typeTest operand target mode)
    (hc : ∀ c ∈ r.form.children, c.TestsBoolean) : r.TestsBoolean :=
  .node (fun _ _ _ h => absurd h (hform _ _ _)) hc

theorem testsBoolean_of_rel {R : Expr → Expr → Prop} (he : e.TestsBoolean) (hty : n.ty = e.ty)
    (hrel : Form.Rel R e.form n.form) (hR : ∀ a ∈ e.form.children, ∀ b, R a b → b.TestsBoolean) : n.TestsBoolean := by
  refine .node (fun operand target mode hform => ?_) fun c hc => ?_
  · rw [hform] at hrel
    obtain ⟨a, ha⟩ := hrel.typeTest_left
    rw [hty, he.here _ _ _ ha]
  · obtain ⟨a, ha, h⟩ := hrel.exists_left hc
    exact hR a ha c h

theorem Expr.IsLeaf.testsBoolean (h : r.IsLeaf) : r.TestsBoolean := by
  cases h with
  | constant hf | defaultOf hf =>
    exact testsBoolean_of_form (by rw [hf]; simp) (by rw [hf]; simp [Form.children])
  | @throw c v hf hc =>
    refine testsBoolean_of_form (by rw [hf]; simp) ?_
    rw [hf]
    simp only [Form.children, Option.toList_some, List.mem_singleton, forall_eq]
    exact testsBoolean_of_form (by rw [hc]; simp) (by rw [hc]; simp [Form.children])

theorem Retyped.testsBoolean {ty : Ty} (h : Retyped ty e r) (he : e.TestsBoolean) : r.TestsBoolean := by
  refine h.all ⟨?_, ?_, ?_⟩ he
  · intro a b value _ _ _ _ hb operand target mode hform
    cases hb.symm.trans hform
  · intro a b _ _ _ _ _ _ _ _ _ _ hb operand target mode hform
    cases hb.symm.trans hform
  · intro b _ huntyped operand target mode hform
    rw [hform] at huntyped
    cases huntyped

theorem Substituted.testsBoolean {s : Substitution} (h : Substituted s e r) (he : e.TestsBoolean)
    (hs : ∀ p ∈ s, p.2.TestsBoolean) : r.TestsBoolean := by
  induction h with
  | done => exact he
  | @var s e x hf =>
    cases hl : s.lookup x with
    | none => exact he
    | some a =>
      obtain ⟨_, _, hs', _⟩ := List.lookup_eq_some_iff.1 hl
      exact hs (x, a) (by simp [hs'])
  | node _ hty hrel _ ih =>
    refine testsBoolean_of_rel he hty (Form.rel_of_scoped hrel) ?_
    rintro a ha b ⟨bound, hR⟩
    exact ih _ _ hR (he.child ha) fun p hp => hs p (List.mem_of_mem_filter hp)

end

/-! ### Steps, inlining and visits -/

namespace Optimizer

variable {σ κ : Type} {o : Optimizer σ κ} {cx : Context} {e n r : Expr}

/-- **One step**: the result has the type of the node, and its type tests are of type `bool`. -/
theorem Step.testsBoolean (h : o.Step n cx r) (hn : n.TestsBoolean) : r.ty = n.ty ∧ r.TestsBoolean := by
  cases h with
  | kept => exact ⟨rfl, hn⟩
  | threw ht hr => exact ⟨hr.ty_eq, hr.testsBoolean (ht.all fun _ => hn.child)⟩
  | @threwAfter pre post t t' r hops _ _ hr hty hform =>
    have hmem : ∀ a ∈ pre ++ t :: post, a.TestsBoolean :=
      fun a ha => hn.child (Form.mem_children_of_operands (hops ▸ ha))
    refine ⟨hty, testsBoolean_of_form (by rw [hform]; simp) ?_⟩
    rw [hform]
    simp only [Form.children, List.mem_append, List.mem_filter, List.mem_singleton]
    rintro c (⟨hc, _⟩ | rfl)
    · exact hmem c (by simp [hc])
    · exact hr.testsBoolean (hmem t (by simp))
  | called _ _ _ _ ha => exact ⟨ha.1, ha.isLeaf.testsBoolean⟩
  | folded _ hc => exact ⟨hc.ty_eq, hc.isLeaf.testsBoolean⟩
  | decided b hform => exact ⟨(hn.here _ _ _ hform).symm, (Expr.IsLeaf.constant rfl).testsBoolean⟩
  | branch hb hr => exact ⟨hr.ty_eq, hr.testsBoolean (hn.child hb.mem)⟩
  | defaulted _ _ _ hty hform => exact ⟨hty, (Expr.IsLeaf.defaultOf hform).testsBoolean⟩
  | @flattened test whenTrue whenFalse innerTest innerTrue innerFalse both r hform htrue _ _ _ _ _ _ _ hboth hty hr =>
    have houter : ∀ c ∈ [test, whenTrue, whenFalse], c.TestsBoolean := fun c hc => hn.child (by rw [hform]; exact hc)
    have hinner : ∀ c ∈ [innerTest, innerTrue, innerFalse], c.TestsBoolean :=
      fun c hc => (houter whenTrue (by simp)).child (by rw [htrue]; exact hc)
    have hb : both.TestsBoolean := by
      refine testsBoolean_of_form (by rw [hboth]; simp) ?_
      rw [hboth]
      simpa [Form.children] using ⟨houter test (by simp), hinner innerTest (by simp)⟩
    refine ⟨hty, testsBoolean_of_form (by rw [hr]; simp) ?_⟩
    rw [hr]
    simpa [Form.children] using ⟨hb, hinner innerTrue (by simp), houter whenFalse (by simp)⟩
  | @simplified body r clauses kept cleanup onFault hform hsimplified _ hty hr =>
    refine ⟨hty, testsBoolean_of_form (by rw [hr]; simp) fun c hc => hn.child ?_⟩
    rw [hr] at hc
    rw [hform]
    exact mem_children_of_simplified hsimplified hc

/-- **Inlining**: what is made has the type of the node, and its type tests are of type `bool`. -/
theorem Inlines.testsBoolean {reduced : Expr} (h : o.Inlines n reduced) (hn : n.TestsBoolean) :
    reduced.ty = n.ty ∧ reduced.TestsBoolean := by
  obtain ⟨callee, params, body, args, _, b, hform, hcallee, _, ⟨_, _, s, hlit, hsub⟩, hr⟩ := h
  have hbody : body.TestsBoolean := by
    have hc : callee.TestsBoolean := hn.child (by rw [hform]; exact List.mem_cons_self)
    exact hc.child (by rw [hcallee]; exact List.mem_cons_self)
  refine ⟨hr.ty_eq, hr.testsBoolean (hsub.testsBoolean hbody fun q hq => ?_)⟩
  obtain ⟨p, _, _, value, c, _, _, hc, hrl⟩ := exists_left_of_forall₂ hlit hq
  exact hrl.testsBoolean (Expr.IsLeaf.constant hc).testsBoolean

/-- **Visits**: they keep the type, and type tests stay of type `bool`. -/
theorem Visits.testsBoolean (h : o.Visits cx e r) (he : e.TestsBoolean) : r.ty = e.ty ∧ r.TestsBoolean := by
  induction h with
  | skipped => exact ⟨rfl, he⟩
  | settled _ hrel hty _ hstep ih =>
    have hn : Expr.TestsBoolean _ := testsBoolean_of_rel he hty (o.facts.rel_of_inContext hrel) (by
      rintro a ha b ⟨cx, hR⟩
      exact (ih _ _ hR (he.child ha)).2)
    obtain ⟨hr, ht⟩ := hstep.testsBoolean hn
    exact ⟨hr.trans hty, ht⟩
  | inlined _ hrel hty hin _ ih ihr =>
    have hn : Expr.TestsBoolean _ := testsBoolean_of_rel he hty (o.facts.rel_of_inContext hrel) (by
      rintro a ha b ⟨cx, hR⟩
      exact (ih _ _ hR (he.child ha)).2)
    obtain ⟨hred, ht⟩ := hin.testsBoolean hn
    obtain ⟨hr, htr⟩ := ihr ht
    exact ⟨hr.trans (hred.trans hty), htr⟩

/-! ### Runs are visits -/

open Store

variable {E : Halt → Prop}

/-- `r` exists and is what a visit may make of `e`. -/
def Visited (o : Optimizer σ κ) (cx : Context) (e : Expr) (st : Store) (r : Expr) : Prop := r ∈ st ∧ o.Visits cx e r

/-- A property `G` of trees is kept by visits, and it lets the rule for a node be halted only as `E` says. -/
structure Guards (o : Optimizer σ κ) (E : Halt → Prop) (G : Expr → Prop) : Prop where
  child {e c : Expr} : G e → c ∈ e.form.children → G c
  rebuilt {cx : Context} {e n : Expr} {R : Expr × Context → Expr → Prop} : G e → (∀ p c, R p c → o.Visits p.2 p.1 c) →
    Form.Rel R (o.facts.inContext cx e.form) n.form → n.ty = e.ty → G n
  inlined {n reduced : Expr} : G n → o.Inlines n reduced → G reduced
  typeChanged {cx : Context} {e r : Expr} : G e → o.Visits cx e r → r.ty ≠ e.ty → E (.typeChanged e.ty r.ty)
  rule {st : Store} {cx : Context} {n : Expr} {again : Expr → Context → Run σ Expr} {A : Store → Expr → Expr → Prop} :
    G n → n ∈ st → (∀ st' reduced, st ≤ st' → reduced ∈ st' → o.Inlines n reduced →
      (o.logic E).reaches st' (again reduced cx) fun st'' r => A st'' reduced r) →
    (o.logic E).reaches st (o.rule again n cx) (o.Settled cx n A)

/-- When all faults are allowed, it takes type tests of type `bool` to keep types from being changed. -/
theorem guards_of_faults (hE : ∀ fault, E (.fault fault)) :
    o.Guards E fun e => e.TestsBoolean ∨ ∀ a b, E (.typeChanged a b) where
  child he hc := he.imp (·.child hc) id
  rebuilt he hR hrel hty := by
    refine he.imp (fun he => testsBoolean_of_rel he hty (o.facts.rel_of_inContext hrel) ?_) id
    rintro a ha b ⟨cx, h⟩
    exact ((hR _ _ h).testsBoolean (he.child ha)).2
  inlined hn hin := hn.imp (fun hn => (hin.testsBoolean hn).2) id
  typeChanged he hv hty := by
    obtain he | hall := he
    · exact absurd (hv.testsBoolean he).1 hty
    · exact hall _ _
  rule _ hn hagain := rule_reaches hE hn hagain

/-- What `visit` gives is what a visit may make of a tree, for trees as `G` says with fewer than `bound` function literals. It
is halted only as `E` says. -/
def Sound (o : Optimizer σ κ) (E : Halt → Prop) (G : Expr → Prop) (bound : Nat) (visit : Expr → Context → Run σ Expr) :
    Prop :=
  ∀ st e cx, e ∈ st → e.lambdaCount < bound → G e → (o.logic E).reaches st (visit e cx) (o.Visited cx e)

theorem pass_eq (again : Expr → Context → Run σ Expr) (e : Expr) (cx : Context) :
    o.pass again e cx = do
      if ← o.hooks.admits e then
        let start ← o.hooks.before e
        let node ←
          if start.same e then do
            let form ← (o.facts.inContext cx e.form).mapM fun p => o.pass again p.1 p.2
            e.rebuild form
          else do
            let form ← (o.facts.inContext cx start.form).mapM fun p => again p.1 p.2
            start.rebuild form
        o.finish again e node cx
      else return e := by
  have hmap : ((o.facts.inContext cx (e.form.map fun c => (c, o.pass again c))).mapM
      fun p => p.1.2 p.2) = (o.facts.inContext cx e.form).mapM fun p => o.pass again p.1 p.2 := by
    rw [Facts.inContext_map, Form.mapM_map]
    rfl
  rw [← hmap]
  conv_lhs => rw [pass, Expr.recurse_eq]
  rfl

variable {G : Expr → Prop} (hG : o.Guards E G)

include hG

theorem finish_reaches (ho : o.hooks.Transparent) {bound : Nat} {again : Expr → Context → Run σ Expr}
    (hagain : o.Sound E G bound again) {st : Store} {R : Expr × Context → Expr → Prop} (hn : n ∈ st)
    (hR : ∀ p c, R p c → o.Visits p.2 p.1 c) (hrel : Form.Rel R (o.facts.inContext cx e.form) n.form)
    (hty : n.ty = e.ty) (hbound : e.lambdaCount < bound + 1) (he : G e) :
    (o.logic E).reaches st (o.finish again e n cx) (o.Visited cx e) := by
  have hGn : G n := hG.rebuilt he hR hrel hty
  have hcount : n.lambdaCount ≤ e.lambdaCount := lambdaCount_le_of_rel (o.facts.rel_of_inContext hrel) (by
    rintro a b ⟨cx, h⟩
    exact (hR _ _ h).lambdaCount_le)
  have hrule : (o.logic E).reaches st (o.rule again n cx) (o.Settled cx n fun st reduced => o.Visited cx reduced st) := by
    refine hG.rule hGn hn fun st' reduced _ hred hin => hagain st' reduced cx hred ?_ (hG.inlined hGn hin)
    have := hin.lambdaCount_lt
    omega
  refine (o.logic E).ofBind hrule fun st₁ hst₁ r hr => ?_
  have hvisited : o.Visited cx e st₁ r := by
    obtain ⟨hmem, hstep⟩ | ⟨reduced, hin, hmem, hv⟩ := hr
    · exact ⟨hmem, .settled hR hrel hty ⟨st₁, mem_of_le hst₁ hn, hmem⟩ hstep⟩
    · exact ⟨hmem, .inlined hR hrel hty hin hv⟩
  split
  · next h => exact Run.reaches_throw (hG.typeChanged he hvisited.2 (by simpa using h))
  · split
    · exact (o.logic E).ofPure fun _ hk => ⟨mem_of_le hk hvisited.1, hvisited.2⟩
    · refine (o.logic E).ofImp (Run.reaches_effect _) ?_
      rintro st₂ hk _ ⟨w, rfl⟩
      rw [ho.after]
      exact ⟨mem_of_le hk hvisited.1, hvisited.2⟩

/-- One pass may make trees with one function literal less than the tree it is for. -/
theorem pass_sound (ho : o.hooks.Transparent) {bound : Nat} {again : Expr → Context → Run σ Expr}
    (hagain : o.Sound E G bound again) : o.Sound E G (bound + 1) (o.pass again) := by
  intro st e
  induction e using Expr.inductionOn generalizing st with
  | node e ih =>
    intro cx he hbound hGe
    rw [pass_eq]
    refine (o.logic E).ofBind (Run.reaches_effect _) fun st₁ hst₁ admitted ⟨w, hw⟩ => ?_
    split
    · refine (o.logic E).ofBind (Run.reaches_effect _) ?_
      rintro st₂ hst₂ _ ⟨w', rfl⟩
      rw [ho.before]
      simp only [Expr.same, beq_self_eq_true, if_true]
      have hst : st ≤ st₂ := hst₁.trans hst₂
      let R : Store → Expr × Context → Expr → Prop := fun st p c => o.Visited p.2 p.1 st c
      have hR : Lasting R := fun _ _ hk _ _ h => ⟨mem_of_le hk h.1, h.2⟩
      refine (o.logic E).ofBind (Form.mapM_reaches (o.logic E) hR (k := st₂) ?_) fun st₃ hst₃ form hform => ?_
      · intro p hp st₃ hst₃
        have hc : p.1 ∈ e.form.children := o.facts.mem_of_inContext hp
        exact ih p.1 hc st₃ p.2 (mem_of_le (hst.trans hst₃) (child he hc))
          ((Expr.lambdaCount_child hc).trans_lt hbound) (hG.child hGe hc)
      have hshape : Form.Rel (fun _ _ => True) e.form form :=
        (o.facts.rel_of_inContext hform).mono fun _ _ _ => trivial
      have hparts : ∀ c ∈ form.children, c ∈ st₃ := by
        intro c hc
        obtain ⟨_, _, h⟩ := hform.exists_left hc
        exact h.1
      have hmem : e ∈ st₃ := mem_of_le (hst.trans hst₃) he
      refine (o.logic E).ofBind (Run.reaches_fresh (Expr.rebuild_reaches hmem hshape hparts)) ?_
      rintro st₄ _ n ⟨hn, hty, hnform⟩
      exact finish_reaches hG ho hagain hn (fun _ _ h => h.2) (hform.trans_eq hnform) hty hbound hGe
    · next h =>
      have hw : (o.hooks.admits e w).1 = false := by simpa [hw] using h
      exact (o.logic E).ofPure fun _ hk => ⟨mem_of_le (hst₁.trans hk) he, .skipped hw⟩

theorem visitWithin_sound (ho : o.hooks.Transparent) {bound : Nat} {last : Expr → Context → Run σ Expr}
    (hlast : o.Sound E G bound last) (fuel : Nat) : o.Sound E G (bound + fuel + 1) (o.visitWithin last fuel) := by
  induction fuel with
  | zero => exact pass_sound hG ho hlast
  | succ fuel ih => exact pass_sound hG ho ih

/-- **Visits**: what the optimizer makes of a tree is what a visit may make of it. Trees that inlining makes are nested no
more deeply than there are function literals, so a run is never cut short. -/
theorem visit_sound (ho : o.hooks.Transparent) (bound : Nat) : o.Sound E G bound o.visit := by
  have hnone : o.Sound E G 0 fun _ _ => throw .exhausted := fun _ _ _ _ h => absurd h (Nat.not_lt_zero _)
  have hmade : o.Sound E G bound o.visitMade := fun st e cx he _ hGe =>
    visitWithin_sound hG ho hnone e.lambdaCount st e cx he (by omega) hGe
  exact fun st e cx he hbound hGe =>
    visitWithin_sound hG ho hmade o.hooks.allowance st e cx he (by omega) hGe

theorem Guards.visit_ends (ho : o.hooks.Transparent) {s : Progress σ} (he : e.Identified s.nodes) (hGe : G e) :
    (o.visit e cx).Ends s (fun r s' => o.Visits cx e r ∧ r.Identified s'.nodes) E := by
  obtain ⟨st, hst, hmem⟩ := he
  refine (visit_sound hG ho _ st e cx hmem (Nat.lt_succ_self _) hGe st le_rfl s hst).imp ?_
  rintro r s' ⟨st', _, hst', hr, hv⟩
  exact ⟨hv, st', hst', hr⟩

omit hG

/-- What a run of the optimizer on a tree starts from. -/
def starting (e : Expr) (s : Progress σ) : Progress σ :=
  { s with tally := { Tally.empty with nodesBefore := e.nodeCount } }

/-- A state after the nodes of the result are counted. -/
def counted (r : Expr) (s : Progress σ) : Progress σ := { s with tally := { s.tally with nodesAfter := r.nodeCount } }

theorem optimize_run (e : Expr) (s : Progress σ) :
    o.optimize e s =
      match (if o.settings.level == .none then pure e else o.visit e .plain : Run σ Expr) (starting e s) with
      | .ok r s₁ => .ok r (counted r s₁)
      | .error halt s₁ => .error halt s₁ := by
  unfold optimize
  by_cases h : (o.settings.level == .none) = true
  · simp only [h, if_true]
    rfl
  · simp only [h, if_false, Bool.false_eq_true]
    have hmodify : ∀ (f : Progress σ → Progress σ) s, (modify f : Run σ PUnit) s = .ok ⟨⟩ (f s) := fun _ _ => rfl
    simp only [bind, EStateM.bind, hmodify]
    generalize hs : starting e s = s₁
    rw [starting] at hs
    rw [hs]
    cases o.visit e .plain s₁ <;> rfl

include hG

theorem Guards.optimize_ends (ho : o.hooks.Transparent) {s : Progress σ} (he : e.Identified s.nodes) (hGe : G e) :
    (o.optimize e).Ends s (fun r s' => (r = e ∨ o.Visits .plain e r) ∧ r.Identified s'.nodes) E := by
  have hvisit : (if o.settings.level == .none then pure e else o.visit e .plain : Run σ Expr).Ends (starting e s)
      (fun r s' => (r = e ∨ o.Visits .plain e r) ∧ r.Identified s'.nodes) E := by
    split
    · exact Run.ends_pure ⟨.inl rfl, he⟩
    · exact (hG.visit_ends (s := starting e s) ho he hGe).imp fun _ _ h => ⟨.inr h.1, h.2⟩
  cases hvisit with
  | @result r s₁ h hr =>
    have hrun : o.optimize e s = .ok r (counted r s₁) := by rw [optimize_run, h]
    exact .result hrun hr
  | halted h hE => exact .halted (by rw [optimize_run, h]) hE

omit hG

theorem visit_ends (hE : ∀ fault, E (.fault fault)) (ho : o.hooks.Transparent) {s : Progress σ}
    (he : e.Identified s.nodes) (htests : e.TestsBoolean ∨ ∀ a b, E (.typeChanged a b)) :
    (o.visit e cx).Ends s (fun r s' => o.Visits cx e r ∧ r.Identified s'.nodes) E :=
  (guards_of_faults hE).visit_ends ho he htests

theorem optimize_ends (hE : ∀ fault, E (.fault fault)) (ho : o.hooks.Transparent) {s : Progress σ}
    (he : e.Identified s.nodes) (htests : e.TestsBoolean ∨ ∀ a b, E (.typeChanged a b)) :
    (o.optimize e).Ends s (fun r s' => (r = e ∨ o.Visits .plain e r) ∧ r.Identified s'.nodes) E :=
  (guards_of_faults hE).optimize_ends ho he htests

/-- A visit that gives a result is a visit of the tree. -/
theorem visits_of_visit (ho : o.hooks.Transparent) {s s' : Progress σ} (he : e.Identified s.nodes)
    (hrun : o.visit e cx s = .ok r s') : o.Visits cx e r :=
  ((visit_ends (E := fun _ => True) (fun _ => trivial) ho he (.inr fun _ _ => trivial)).of_eq hrun).1

/-- A run that gives a result visits the tree or leaves it alone. -/
theorem visits_of_optimize (ho : o.hooks.Transparent) {s s' : Progress σ} (he : e.Identified s.nodes)
    (hrun : o.optimize e s = .ok r s') : (r = e ∨ o.Visits .plain e r) ∧ r.Identified s'.nodes :=
  (optimize_ends (E := fun _ => True) (fun _ => trivial) ho he (.inr fun _ _ => trivial)).of_eq hrun

end Optimizer

/-! ### The check never fails -/

open Store

/-- **Static types are kept**: for a tree whose type tests are of type `bool`, whatever the context, the settings, the
catalog and the evaluators, and with hooks that replace nothing, a visit and a whole run end with a result or with a fault:
they are neither halted because a rule changed a type nor cut short. A result has the static type of the tree, and its type
tests are of type `bool` again. -/
theorem static_type_kept {σ κ : Type} (catalog : Catalog) (evaluators : Evaluators σ κ) (hooks : Hooks σ)
    (settings : Settings) (hooks_transparent : hooks.Transparent) (e : Expr) (cx : Context) (s : Progress σ)
    (identified : e.Identified s.nodes) (tests : e.TestsBoolean) :
    let o : Optimizer σ κ := ⟨catalog.facts, evaluators, hooks, settings⟩
    (o.visit e cx).Ends s (fun r _ => r.ty = e.ty ∧ r.TestsBoolean) (fun halt => ∃ fault, halt = .fault fault) ∧
      (o.optimize e).Ends s (fun r _ => r.ty = e.ty ∧ r.TestsBoolean) (fun halt => ∃ fault, halt = .fault fault) := by
  intro o
  have hfault : ∀ fault, ∃ fault', Halt.fault fault = .fault fault' := fun fault => ⟨fault, rfl⟩
  constructor
  · refine (Optimizer.visit_ends hfault hooks_transparent identified (.inl tests)).imp ?_
    exact fun r _ h => h.1.testsBoolean tests
  · refine (Optimizer.optimize_ends hfault hooks_transparent identified (.inl tests)).imp ?_
    rintro r _ ⟨rfl | h, _⟩
    · exact ⟨rfl, tests⟩
    · exact h.testsBoolean tests

theorem Hooks.none_transparent {σ : Type} : (Hooks.none : Hooks σ).Transparent := ⟨fun _ _ => rfl, fun _ _ => rfl⟩

/-- A run gave a tree, and the tree and the state it ended in pass the test. -/
def Run.passes {σ : Type} (test : Expr → Progress σ → Bool) : EStateM.Result Halt (Progress σ) Expr → Bool
  | .ok r s => test r s
  | .error _ _ => false

theorem Run.exists_of_passes {σ : Type} {test : Expr → Progress σ → Bool} {outcome : EStateM.Result Halt (Progress σ) Expr}
    (h : Run.passes test outcome = true) : ∃ r s, outcome = .ok r s ∧ test r s = true := by
  cases outcome with
  | ok r s => exact ⟨r, s, rfl, h⟩
  | error => cases h

/-- An optimizer that knows nothing of the library and can run nothing. -/
def Optimizer.bare : Optimizer Console Registration := ⟨Catalog.empty.facts, Registry.empty.natives, .none, .standard⟩

theorem Registry.mem_of_compile {κ : Type} {r : Registry κ} {m : Member} {callable : κ}
    (h : r.compile m = .ok callable) : ∃ m', (m', callable) ∈ r.entries := by
  have hlookup : ∀ m', r.entries.lookup m' = some callable → (m', callable) ∈ r.entries := by
    intro m' h
    obtain ⟨_, _, h, _⟩ := List.lookup_eq_some_iff.1 h
    simp [h]
  have hfind : r.find? m = some callable := by
    unfold compile at h
    split at h
    · next hfind => rw [hfind, Except.ok.inj h]
    · cases h
  obtain h | ⟨_, h⟩ := Option.or_eq_some_iff.1 hfind
  · exact ⟨m, hlookup m h⟩
  · obtain ⟨m', _, h⟩ := Option.bind_eq_some_iff.1 h
    exact ⟨m', hlookup m' h⟩

theorem Optimizer.bare_runs_nothing {operands : List Value} {outcome : Except Exception Value} :
    ¬ bare.evaluators.Yields operands outcome := by
  rintro ⟨m, w, callable, w', hcompile, _⟩
  obtain ⟨m', hmem⟩ := Registry.mem_of_compile hcompile
  exact List.not_mem_nil hmem

/-- A test whether the parameter of a function literal is a text, invoked on a text. -/
def invokedTest : Fresh .node Expr := do
  let x : Var := ⟨0, "x", .string⟩
  let test ← Expr.typeTest (← Expr.var x) .string .isInstance
  Expr.invoke (← Expr.lambda [x] test) [← Expr.string "a"]

theorem invokedTest_reaches : Store.making.reaches Store.initial invokedTest fun st e => e ∈ st := by
  refine making.ofBind (Expr.make_mem rfl (List.forall_mem_nil _)) fun st₁ _ x hx => ?_
  refine making.ofBind (Expr.make_mem rfl (by simpa [Form.children] using hx)) fun st₂ _ test htest => ?_
  refine making.ofBind (Expr.make_mem rfl (by simpa [Form.children] using htest)) fun st₃ _ callee hcallee => ?_
  refine making.ofBind (Expr.make_mem rfl (List.forall_mem_nil _)) fun st₄ hst₄ arg harg => ?_
  refine Expr.make_mem rfl ?_
  simpa [Form.children] using ⟨mem_of_le hst₄ hcallee, harg⟩

theorem static_type_kept_invokedTest :
    let e := (invokedTest ⟨0⟩).1
    let s : Progress Console := ⟨(invokedTest ⟨0⟩).2, ⟨⟨0⟩, .empty⟩, .empty⟩
    e.Identified s.nodes ∧ e.TestsBoolean ∧ (Optimizer.bare.optimize e).Ends s
      (fun r _ => r.ty = .bool ∧ r.TestsBoolean) (fun halt => ∃ fault, halt = .fault fault) := by
  have identified : (invokedTest ⟨0⟩).1.Identified (invokedTest ⟨0⟩).2 := Expr.identified_of_reaches invokedTest_reaches _
  have tests : (invokedTest ⟨0⟩).1.TestsBoolean := by
    refine .node nofun (List.forall_mem_cons.2 ⟨.node nofun ?_, ?_⟩)
    · refine List.forall_mem_singleton.2 (.node (fun _ _ _ _ => rfl) ?_)
      exact List.forall_mem_singleton.2 (.node nofun nofun)
    · exact List.forall_mem_singleton.2 (.node nofun nofun)
  refine ⟨identified, tests, ?_⟩
  exact (static_type_kept .empty Registry.empty.natives .none .standard Hooks.none_transparent _ .plain
    ⟨_, ⟨⟨0⟩, .empty⟩, .empty⟩ identified tests).2

end TypedTree
