import TypedTree.Proofs.Rules.Basic

/-!
# Rules for conditionals, connectives and switches

A known test selects a branch, a throwing test takes the place of the whole, and two conditionals that share their last branch
are merged (`Optimizer.Shares`). A switch compares its tests one after the other.
-/

namespace TypedTree.Optimizer

open Store

variable {σ κ : Type} {o : Optimizer σ κ} {E : Halt → Prop} {st : Store} {cx : Context} {n : Expr}
variable (hE : ∀ fault, E (.fault fault))

/-! ### Conditionals and connectives -/

/-- The second branch of a conditional is shared with the conditional in its first branch. -/
def Shares (n whenTrue innerFalse whenFalse : Expr) : Prop :=
  whenTrue.ty = n.ty ∧ (whenFalse.form = .defaultOf ∨ ∃ v, whenFalse.form = .constant v) ∧
    innerFalse.equals whenFalse = true

/-- Two conditionals are merged exactly when they share their last branch. -/
theorem flatten?_cases (n test whenTrue whenFalse : Expr) :
    (flatten? n test whenTrue whenFalse = pure none ∧ ∀ innerTest innerTrue innerFalse,
      whenTrue.form = .conditional innerTest innerTrue innerFalse → ¬ Shares n whenTrue innerFalse whenFalse) ∨
      ∃ innerTest innerTrue innerFalse, whenTrue.form = .conditional innerTest innerTrue innerFalse ∧
        Shares n whenTrue innerFalse whenFalse ∧ flatten? n test whenTrue whenFalse =
          (do some <$> Expr.conditional (← Expr.logical .and test innerTest) innerTrue whenFalse n.ty) := by
  have hshared : ∀ {innerTest innerTrue innerFalse}, whenTrue.form = .conditional innerTest innerTrue innerFalse →
      ¬ (whenTrue.ty == n.ty && innerFalse.equals whenFalse) = true → ∀ innerTest innerTrue innerFalse,
      whenTrue.form = .conditional innerTest innerTrue innerFalse → ¬ Shares n whenTrue innerFalse whenFalse := by
    rintro _ _ _ htrue h _ _ _ htrue' ⟨hty, _, heq⟩
    cases htrue.symm.trans htrue'
    exact h (by simp [hty, heq])
  unfold flatten?
  split
  · next innerTest innerTrue innerFalse htrue hfalse =>
    by_cases h : (whenTrue.ty == n.ty && innerFalse.equals whenFalse) = true
    · rw [if_pos h]
      simp only [Bool.and_eq_true, beq_iff_eq] at h
      exact .inr ⟨innerTest, innerTrue, innerFalse, htrue, ⟨h.1, .inl hfalse, h.2⟩, rfl⟩
    · exact .inl ⟨if_neg h, hshared htrue h⟩
  · next innerTest innerTrue innerFalse v htrue hfalse =>
    by_cases h : (whenTrue.ty == n.ty && innerFalse.equals whenFalse) = true
    · rw [if_pos h]
      simp only [Bool.and_eq_true, beq_iff_eq] at h
      exact .inr ⟨innerTest, innerTrue, innerFalse, htrue, ⟨h.1, .inr ⟨v, hfalse⟩, h.2⟩, rfl⟩
    · exact .inl ⟨if_neg h, hshared htrue h⟩
  · next hdefault hconstant =>
    refine .inl ⟨rfl, ?_⟩
    rintro _ _ _ htrue ⟨_, hfalse | ⟨v, hfalse⟩, _⟩
    · exact hdefault _ _ _ htrue hfalse
    · exact hconstant _ _ _ _ htrue hfalse

/-- Merging two conditionals makes a connective of their tests and one conditional. -/
theorem merge_reaches (hn : n ∈ st) {test whenTrue whenFalse innerTest innerTrue innerFalse : Expr}
    (hform : n.form = .conditional test whenTrue whenFalse)
    (htrue : whenTrue.form = .conditional innerTest innerTrue innerFalse) :
    making.reaches st (do some <$> Expr.conditional (← Expr.logical .and test innerTest) innerTrue whenFalse n.ty)
      fun st' found => ∃ r, found = some r ∧ r ∈ st' ∧ ∃ both, both.ty = .bool ∧ both.form = .logical .and test innerTest ∧
        r.ty = n.ty ∧ r.form = .conditional both innerTrue whenFalse := by
  have hmem : ∀ {e}, e ∈ [test, whenTrue, whenFalse] → e ∈ st := fun he => child hn (by rw [hform]; exact he)
  have hinner : ∀ {e}, e ∈ [innerTest, innerTrue, innerFalse] → e ∈ st :=
    fun he => child (hmem (e := whenTrue) (by simp)) (by rw [htrue]; exact he)
  have hparts : ∀ c ∈ [test, innerTest], c ∈ st := by
    simpa using ⟨hmem (by simp), hinner (by simp)⟩
  refine making.ofBind (Expr.make_reaches hparts (by simp [Form.clauses])) ?_
  rintro st₁ hst₁ both ⟨hboth, _, hbty, hbform⟩
  rw [← bind_pure_comp]
  refine making.ofBind (Expr.make_reaches ?_ (by simp [Form.clauses])) ?_
  · simp only [Form.children, List.mem_cons, List.not_mem_nil, or_false]
    rintro c (rfl | rfl | rfl)
    · exact hboth
    · exact mem_of_le hst₁ (hinner (by simp))
    · exact mem_of_le hst₁ (hmem (by simp))
  · rintro st₂ hst₂ r ⟨hr, _, hty, hrform⟩
    exact making.ofPure fun _ hk => ⟨r, rfl, mem_of_le hk hr, both, hbty, hbform, hty, hrform⟩

include hE

theorem conditional_reaches (hn : n ∈ st) {test whenTrue whenFalse : Expr}
    (hform : n.form = .conditional test whenTrue whenFalse)
    (hrule : ∀ again, o.rule again n cx = o.conditional n test whenTrue whenFalse) :
    (o.logic E).reaches st (o.conditional n test whenTrue whenFalse) (o.Settles cx n) := by
  have hmem : ∀ {e}, e ∈ [test, whenTrue, whenFalse] → e ∈ st := fun he => child hn (by rw [hform]; exact he)
  by_cases h₁ : o.facts.alwaysThrows test = true
  · simp only [conditional, h₁, if_true]
    exact throwInstead_reaches hE (hmem (by simp)) (.conditional hform h₁)
  cases h₂ : o.facts.truth? test with
  | some taken =>
    simp only [conditional, h₁, h₂, if_false, Bool.false_eq_true]
    refine takeBranch_reaches hE (hmem ?_) (.conditional hform h₂)
    cases taken <;> simp
  | none =>
    by_cases h₃ : o.settings.flattening = true
    · obtain ⟨heq, _⟩ | ⟨innerTest, innerTrue, innerFalse, htrue, hshares, heq⟩ :=
        flatten?_cases n test whenTrue whenFalse
      · refine reaches_kept_of_eq hn hrule ?_
        simp only [conditional, h₁, h₂, h₃, heq, if_true, if_false, Bool.false_eq_true]
        rfl
      · simp only [conditional, h₁, h₂, h₃, heq, if_true, if_false, Bool.false_eq_true]
        refine (o.logic E).ofBind (Run.reaches_fresh (merge_reaches hn hform htrue)) ?_
        rintro st₁ _ found ⟨r, rfl, hr, both, hbty, hbform, hty, hrform⟩
        refine (o.logic E).ofBind Run.reaches_record fun _ hst _ _ => ?_
        refine (o.logic E).ofPure fun _ hk => ⟨mem_of_le (hst.trans hk) hr, ?_⟩
        exact .flattened hform htrue h₃ (by simpa using h₁) h₂ hshares.1 hshares.2.1 hshares.2.2 hbty hbform hty hrform
    · refine reaches_kept_of_eq hn hrule ?_
      simp only [conditional, h₁, h₂, h₃, if_false, Bool.false_eq_true]

theorem logical_reaches (hn : n ∈ st) {op : Connective} {left right : Expr} (hform : n.form = .logical op left right)
    (hrule : ∀ again, o.rule again n cx = o.logical n op left right) :
    (o.logic E).reaches st (o.logical n op left right) (o.Settles cx n) := by
  have hmem : ∀ {e}, e ∈ [left, right] → e ∈ st := fun he => child hn (by rw [hform]; exact he)
  by_cases h₁ : o.facts.alwaysThrows left = true
  · simp only [logical, h₁, if_true]
    exact throwInstead_reaches hE (hmem (by simp)) (.logical hform h₁)
  cases h₂ : o.facts.truth? left with
  | some value =>
    simp only [logical, h₁, h₂, if_false, Bool.false_eq_true]
    refine takeBranch_reaches hE (hmem ?_) (.logical hform h₂)
    split <;> simp
  | none => exact reaches_kept_of_eq hn hrule (by simp only [logical, h₁, h₂, if_false, Bool.false_eq_true])

/-! ### Switches -/

omit hE

/-- What the outcome of a comparison says of a case. -/
def Match.ofOutcome : Except Exception Value → Match
  | .error e => .raised e
  | .ok result =>
    match result.bool? with
    | some equal => .decided equal
    | none => .undecided

theorem compareWith_some (callable : κ) (value test : Value) :
    o.compareWith (some callable) value test =
      (Match.ofOutcome <$> liftM (o.evaluators.invoke callable [value, test]) : Run σ Match) := by
  rw [← bind_pure_comp]
  unfold compareWith
  refine bind_congr fun outcome => ?_
  cases outcome with
  | error e => rfl
  | ok result =>
    simp only [Match.ofOutcome]
    cases result.bool? <;> rfl

theorem Match.eq_of_raised {outcome : Except Exception Value} {e : Exception} (h : ofOutcome outcome = .raised e) :
    outcome = .error e := by
  cases outcome with
  | error => cases h; rfl
  | ok v =>
    dsimp only [ofOutcome] at h
    split at h <;> cases h

/-- Outcomes with one verdict say the same of a case, up to the exception. -/
theorem Match.ofOutcome_congr {a b : Except Exception Value} (h : verdict a = verdict b) :
    (∃ e e', ofOutcome a = .raised e ∧ ofOutcome b = .raised e') ∨ ofOutcome a = ofOutcome b := by
  cases a with
  | error e =>
    cases b with
    | error e' => exact .inl ⟨e, e', rfl, rfl⟩
    | ok v' => cases h
  | ok v =>
    cases b with
    | error e' => cases h
    | ok v' =>
      have hv : v.bool? = v'.bool? := Option.some.inj h
      exact .inr (by simp only [ofOutcome, hv])

theorem mem_of_caseTests {value : Expr} {comparison : Option Member} {cases : List (Case Expr)} {fallback : Option Expr}
    {test body : Expr} (h : (test, body) ∈ caseTests cases) :
    test ∈ (Form.switch value comparison cases fallback).children ∧
      body ∈ (Form.switch value comparison cases fallback).children := by
  obtain ⟨c, hc, hcase⟩ := List.mem_flatMap.1 h
  obtain ⟨_, ht, heq⟩ := List.mem_map.1 hcase
  cases heq
  have hparts : ∀ e ∈ c.children, e ∈ cases.flatMap Case.children := fun e he => List.mem_flatMap.2 ⟨c, hc, he⟩
  constructor
  · simp [Form.children, hparts _ (List.mem_append_left _ ht)]
  · simp [Form.children, hparts c.body (by simp [Case.children])]

/-- How the choice of a case goes on after a comparison; `rest` looks at the cases that follow. -/
def selectMatch (n body : Expr) (rest : Run σ Expr) : Match → Run σ Expr
  | .decided true => takeBranch n body
  | .decided false => rest
  | .undecided => return n
  | .raised e => do
    let thrown ← n.throwFor e
    recordFold thrown
    return thrown

theorem selectCase_cons {comparison : Option κ} {value candidate : Value} {fallback : Option Expr} {test body : Expr}
    {rest : List (Expr × Expr)} (ht : o.facts.alwaysThrows test = false)
    (hc : o.facts.constantValue? test = some candidate) :
    o.selectCase n comparison value fallback ((test, body) :: rest) =
      o.compareWith comparison value candidate >>= selectMatch n body (o.selectCase n comparison value fallback rest) := by
  simp only [selectCase, ht, hc, if_false, Bool.false_eq_true]
  refine bind_congr fun m => ?_
  rcases m with (_ | _) | _ | _ <;> rfl

/-- `r` is what a step makes of the switch, or the switch is kept and `x` keeps it each time. -/
def Selects (o : Optimizer σ κ) (cx : Context) (n : Expr) (x : Run σ Expr) (r : Expr) : Prop :=
  o.Step n cx r ∨ r = n ∧ (o.evaluators.Steady → ∀ t, (Run.still t).reaches .now x fun _ r => r = n)

include hE

theorem selectMatch_reaches (hn : n ∈ st) {body : Expr} (hbody : body ∈ st) (hcomputed : n.form.isComputed = true)
    {callable : κ} (hcompiled : ∃ m w, (o.evaluators.compile m w).1 = .ok callable) {value candidate : Value}
    (hvalue : o.Supplies n value) (hcandidate : o.Supplies n candidate)
    (hchoose : o.Chooses n body) {rest : Run σ Expr} (hrest : ∀ {st₁}, st ≤ st₁ →
      (o.logic E).reaches st₁ rest fun st' r => r ∈ st' ∧ o.Selects cx n rest r) :
    (o.logic E).reaches st (o.compareWith (some callable) value candidate >>= selectMatch n body rest) fun st' r =>
      r ∈ st' ∧ o.Selects cx n (o.compareWith (some callable) value candidate >>= selectMatch n body rest) r := by
  -- A steady evaluator has the verdict of the first comparison each time.
  have hstill : ∀ w, (∀ e, Match.ofOutcome (o.evaluators.invoke callable [value, candidate] w).1 ≠ .raised e) →
      (o.evaluators.Steady → ∀ t, (Run.still t).reaches .now (selectMatch n body rest
        (Match.ofOutcome (o.evaluators.invoke callable [value, candidate] w).1)) fun _ r => r = n) →
      o.evaluators.Steady → ∀ t, (Run.still t).reaches .now
        (o.compareWith (some callable) value candidate >>= selectMatch n body rest) fun _ r => r = n := by
    intro w hraised hnext hs t
    rw [compareWith_some, map_eq_pure_bind, bind_assoc]
    refine (Run.still t).ofBind (Run.still_effect _) ?_
    rintro _ _ outcome ⟨w', hw'⟩
    obtain ⟨e, _, he, _⟩ | heq := Match.ofOutcome_congr (hs.invoke callable [value, candidate] w w')
    · exact absurd he (hraised e)
    · rw [pure_bind, ← hw', ← heq]
      exact hnext hs t
  have hrun : (o.logic E).reaches st (o.compareWith (some callable) value candidate) fun _ m =>
      ∃ w, Match.ofOutcome (o.evaluators.invoke callable [value, candidate] w).1 = m := by
    rw [compareWith_some, map_eq_pure_bind]
    refine (o.logic E).ofBind (Run.reaches_effect _) ?_
    rintro _ _ outcome ⟨w, hw⟩
    exact (o.logic E).ofPure fun _ _ => ⟨w, by rw [hw]⟩
  refine (o.logic E).ofBind hrun ?_
  rintro st₁ hst₁ m ⟨w, hm⟩
  rcases m with (_ | _) | _ | _
  · refine (o.logic E).ofImp (hrest hst₁) ?_
    rintro st₂ _ r ⟨hr, hstep | ⟨rfl, hkept⟩⟩
    · exact ⟨hr, .inl hstep⟩
    · refine ⟨hr, .inr ⟨rfl, hstill w (by simp [hm]) ?_⟩⟩
      rw [hm]
      exact hkept
  · exact (o.logic E).ofImp (takeBranch_reaches hE (mem_of_le hst₁ hbody) hchoose) fun _ _ _ h => ⟨h.1, .inl h.2⟩
  · next e =>
    refine reaches_recorded ((o.logic E).ofImp (Run.reaches_fresh (Expr.throwValue_reaches _ _)) ?_) fun _ => _
    rintro _ _ r ⟨hr, hty, hraises⟩
    obtain ⟨m, w', hc⟩ := hcompiled
    have hyields : o.evaluators.Yields [value, candidate] (.error e) := ⟨m, w', callable, w, hc, Match.eq_of_raised hm⟩
    exact ⟨hr, .inl (.folded hcomputed (.ran hyields (by simpa using ⟨hvalue, hcandidate⟩) ⟨hty, hraises⟩))⟩
  · refine (o.logic E).ofPure fun _ hk => ⟨mem_of_le (hst₁.trans hk) hn, .inr ⟨rfl, hstill w (by simp [hm]) ?_⟩⟩
    rw [hm]
    exact fun _ t => (Run.still t).ofPure fun _ _ => rfl

theorem selectCase_reaches (hn : n ∈ st) {value : Expr} {comparison : Option Member} {cases : List (Case Expr)}
    {fallback : Option Expr} {known : Value} {callable : Option κ}
    (hform : n.form = .switch value comparison cases fallback) (hvalue : o.facts.constantValue? value = some known)
    (hcallable : comparison = none ↔ callable = none)
    (hcompiled : ∀ c ∈ callable, ∃ m w, (o.evaluators.compile m w).1 = .ok c) {passed rest : List (Expr × Expr)}
    (htests : caseTests cases = passed ++ rest) (hmiss : o.Misses comparison known passed) :
    (o.logic E).reaches st (o.selectCase n callable known fallback rest) fun st' r =>
      r ∈ st' ∧ o.Selects cx n (o.selectCase n callable known fallback rest) r := by
  have hsettled : ∀ {st₁ x y}, (o.logic E).reaches st₁ x (o.Settles cx n) →
      (o.logic E).reaches st₁ x fun st' r => r ∈ st' ∧ o.Selects cx n y r :=
    fun h => (o.logic E).ofImp h fun _ _ _ h => ⟨h.1, .inl h.2⟩
  induction rest generalizing st passed with
  | nil =>
    rw [List.append_nil] at htests
    subst htests
    cases fallback with
    | some body =>
      refine hsettled (takeBranch_reaches hE (child hn ?_) (.fallback hform hvalue hmiss))
      rw [hform]
      simp [Form.children]
    | none =>
      refine hsettled (reaches_recorded (P := o.Step n cx) ?_ fun _ => .branch)
      refine (o.logic E).ofImp (Run.reaches_fresh (Expr.make_reaches (by simp [Form.children]) ?_)) ?_
      · simp [Form.clauses]
      · rintro _ _ r ⟨hr, _, hty, hf⟩
        exact ⟨hr, .defaulted hform hvalue hmiss hty hf⟩
  | cons p rest ih =>
    obtain ⟨test, body⟩ := p
    have hmem := @mem_of_caseTests value comparison cases fallback test body (by rw [htests]; simp)
    rw [← hform] at hmem
    by_cases h₁ : o.facts.alwaysThrows test = true
    · refine hsettled ?_
      simp only [selectCase, h₁, if_true]
      exact throwInstead_reaches hE (child hn hmem.1) (.caseTest hform hvalue htests hmiss h₁)
    cases h₂ : o.facts.constantValue? test with
    | none =>
      have heq : o.selectCase n callable known fallback ((test, body) :: rest) = pure n := by
        simp only [selectCase, h₁, h₂, if_false, Bool.false_eq_true]
      rw [heq]
      exact (o.logic E).ofPure fun _ hk =>
        ⟨mem_of_le hk hn, .inr ⟨rfl, fun _ t => (Run.still t).ofPure fun _ _ => rfl⟩⟩
    | some candidate =>
      have hnext : o.Misses comparison known (passed ++ [(test, body)]) →
          ∀ {st₁}, st ≤ st₁ → (o.logic E).reaches st₁ (o.selectCase n callable known fallback rest) fun st' r =>
            r ∈ st' ∧ o.Selects cx n (o.selectCase n callable known fallback rest) r :=
        fun hmiss _ hst => ih (mem_of_le hst hn) (by rw [htests]; simp) hmiss
      cases callable with
      | none =>
        have hcomparison : comparison = none := hcallable.2 rfl
        by_cases h₃ : known.defaultEquals candidate = true
        · have heq : o.selectCase n none known fallback ((test, body) :: rest) = takeBranch n body := by
            simp only [selectCase, h₁, h₂, compareWith, h₃, if_false, Bool.false_eq_true, pure_bind]
          refine hsettled ?_
          rw [heq]
          exact takeBranch_reaches hE (child hn hmem.2) (.case hform hvalue htests hmiss fun _ => ⟨_, h₂, h₃⟩)
        · have heq : o.selectCase n none known fallback ((test, body) :: rest) =
              o.selectCase n none known fallback rest := by
            simp only [selectCase, h₁, h₂, compareWith, h₃, if_false, Bool.false_eq_true, pure_bind]
          rw [heq]
          refine hnext (fun hc p hp => ?_) le_rfl
          obtain hp | hp := List.mem_append.1 hp
          · exact hmiss hc p hp
          · obtain rfl := List.mem_singleton.1 hp
            exact ⟨candidate, h₂, by simpa using h₃⟩
      | some callable =>
        have hcomparison : comparison ≠ none := fun h => by cases hcallable.1 h
        have hcomputed : n.form.isComputed = true := by
          rw [hform]
          exact Option.isSome_iff_ne_none.2 hcomparison
        rw [selectCase_cons (by simpa using h₁) h₂]
        have hknown : o.Supplies n known := .known (by rw [hform]; exact List.mem_cons_self) hvalue
        refine selectMatch_reaches hE hn (child hn hmem.2) hcomputed (hcompiled callable rfl) hknown (.known hmem.1 h₂) ?_
          (hnext fun h => absurd h hcomparison)
        exact .case hform hvalue htests hmiss fun h => absurd h hcomparison

theorem switch_reaches (hn : n ∈ st) {value : Expr} {comparison : Option Member} {cases : List (Case Expr)}
    {fallback : Option Expr} (hform : n.form = .switch value comparison cases fallback)
    (hrule : ∀ again, o.rule again n cx = o.switch n value comparison cases fallback) :
    (o.logic E).reaches st (o.switch n value comparison cases fallback) (o.Settles cx n) := by
  have hvalue : value ∈ st := child hn (by rw [hform]; exact List.mem_cons_self)
  by_cases h₁ : o.facts.alwaysThrows value = true
  · simp only [switch, h₁, if_true]
    exact throwInstead_reaches hE hvalue (.switch hform h₁)
  by_cases h₂ : o.settings.folding = true
  · cases h₃ : o.facts.constantValue? value with
    | none => exact reaches_kept_of_eq hn hrule (by simp only [switch, h₁, h₂, h₃, if_true, if_false, Bool.false_eq_true])
    | some known =>
      have hselect : ∀ {st₁} (callable : Option κ), st ≤ st₁ → (comparison = none ↔ callable = none) →
          (∀ c ∈ callable, ∃ m w, (o.evaluators.compile m w).1 = .ok c) →
          (o.logic E).reaches st₁ (o.selectCase n callable known fallback (caseTests cases)) fun st' r =>
            r ∈ st' ∧ o.Selects cx n (o.selectCase n callable known fallback (caseTests cases)) r :=
        fun _ hst hcallable hcompiled => selectCase_reaches hE (mem_of_le hst hn) hform h₃ hcallable hcompiled
          (List.nil_append _).symm fun _ p hp => absurd hp List.not_mem_nil
      cases comparison with
      | none =>
        have heq : o.switch n value none cases fallback = o.selectCase n none known fallback (caseTests cases) := by
          simp only [switch, h₁, h₂, h₃, if_true, if_false, Bool.false_eq_true]
          rfl
        rw [heq]
        refine (o.logic E).ofImp (hselect none le_rfl (by simp) nofun) ?_
        rintro st₁ _ r ⟨hr, hstep | ⟨rfl, hkept⟩⟩
        · exact ⟨hr, hstep⟩
        · exact ⟨hr, .kept fun hs again t => by rw [hrule, heq]; exact hkept hs t⟩
      | some m =>
        by_cases h₄ : o.facts.isPureMember m = true
        · have heq : o.switch n value (some m) cases fallback = o.compile? m >>= fun answer =>
              answer.elim (pure n) fun callable => o.selectCase n (some callable) known fallback (caseTests cases) := by
            simp only [switch, h₁, h₂, h₃, h₄, if_true, if_false, Bool.false_eq_true]
            refine bind_congr fun answer => ?_
            cases answer <;> rfl
          rw [heq]
          refine (o.logic E).ofBind (compile?_reaches m) fun st₁ hst₁ answer hanswer => ?_
          cases answer with
          | none =>
            obtain ⟨w, fault, hw⟩ := hanswer
            refine reaches_kept (mem_of_le hst₁ hn) fun hs again t => ?_
            rw [hrule, heq]
            refine (Run.still t).ofBind (still_compile? hs w) fun _ _ callable hc => ?_
            obtain rfl : callable = none := by rw [hc, hw]; rfl
            exact (Run.still t).ofPure fun _ _ => rfl
          | some callable =>
            obtain ⟨w, hw⟩ := hanswer
            have hcompiled : ∀ c ∈ some callable, ∃ m w, (o.evaluators.compile m w).1 = .ok c := by
              rintro _ ⟨⟩
              exact ⟨m, w, hw⟩
            refine (o.logic E).ofImp (hselect (some callable) hst₁ (by simp) hcompiled) ?_
            rintro st₂ _ r ⟨hr, hstep | ⟨rfl, hkept⟩⟩
            · exact ⟨hr, hstep⟩
            · refine ⟨hr, .kept fun hs again t => ?_⟩
              rw [hrule, heq]
              refine (Run.still t).ofBind (still_compile? hs w) fun _ _ answer hc => ?_
              obtain rfl : answer = some callable := by rw [hc, hw]; rfl
              exact hkept hs t
        · exact reaches_kept_of_eq hn hrule
            (by simp only [switch, h₁, h₂, h₃, h₄, if_true, if_false, Bool.false_eq_true])
  · exact reaches_kept_of_eq hn hrule (by simp only [switch, h₁, h₂, if_false, Bool.false_eq_true])

end TypedTree.Optimizer
