import TypedTree.Proofs.Rules

/-!
# Plans

A rule looks at the node, at the facts and at the settings before it does anything, and so it has a plan before it runs
anything. `Plan` lists the plans, `Optimizer.carryOut` runs one, and `Optimizer.Plans` says for which nodes a plan is made:
in particular, members are only run when they are pure and folding is allowed. That every rule has such a plan is
`Optimizer.exists_plan`; the plan depends on the facts and settings alone, so optimizers that share them share their plans,
whatever hosts they have.
-/

namespace TypedTree

/-- What a rule sets out to do with a node. -/
inductive Plan where
  /-- To keep the node. -/
  | keep
  /-- To put a throw in its place. -/
  | raise (thrower : Expr)
  /-- To put a branch in its place. -/
  | take (branch : Expr)
  /-- To put the first throwing operand in its place. -/
  | propagate (operands : List Expr)
  /-- To put the throw for a dereferenced null in its place. -/
  | dereference
  /-- To run a member. -/
  | run (member : Member) (values : List Value)
  /-- To run the targets of a delegate. -/
  | runAll (targets : List (Target Value)) (values : List Value)
  /-- To fold it to what is found for it. -/
  | fold (found : Build (Option Expr))
  /-- To merge it with the conditional in its first branch. -/
  | merge (test whenTrue whenFalse : Expr)
  /-- To choose a case for a known value. -/
  | select (comparison : Option Member) (value : Value) (tests : List (Expr × Expr)) (fallback : Option Expr)
  /-- To inline a function literal. -/
  | inline (params : List Var) (body : Expr) (args : List Expr)
  /-- To simplify handlers. -/
  | handle (body : Expr) (clauses : List (Clause Expr)) (cleanup onFault : Option Expr)

namespace Optimizer

variable {σ κ : Type} (o : Optimizer σ κ)

/-- Carries out a plan for a node. -/
def carryOut (again : Expr → Context → Run σ Expr) (n : Expr) (cx : Context) : Plan → Run σ Expr
  | .keep => return n
  | .raise thrower => throwInstead n thrower
  | .take branch => takeBranch n branch
  | .propagate operands => o.propagateThrow n operands (Operands.analyze o.facts operands)
  | .dereference => predictNull n
  | .run member values => o.runMember n member values
  | .runAll targets values => do
    match ← o.evaluators.invokeAll values targets none with
    | some outcome => foldTo n (some (← n.outcomeFor outcome))
    | none =>
      record .refused
      return n
  | .fold found => liftM found >>= foldTo n
  | .merge test whenTrue whenFalse => do
    match ← flatten? n test whenTrue whenFalse with
    | some flat =>
      record .branch
      return flat
    | none => return n
  | .select none value tests fallback => o.selectCase n none value fallback tests
  | .select (some comparison) value tests fallback => do
    match ← o.compile? comparison with
    | some callable => o.selectCase n (some callable) value fallback tests
    | none => return n
  | .inline params body args => do
    match ← inline? o.facts params body args with
    | some reduced =>
      let reduced ← reduced.retype n.ty
      record .inlined
      again reduced cx
    | none => return n
  | .handle body clauses cleanup onFault => o.tryCatch n body clauses cleanup onFault

/-- The rule for the node `n` may make the plan. -/
inductive Plans (n : Expr) : Plan → Prop where
  | keep : Plans n .keep
  | raise {t : Expr} : o.Throws n t → Plans n (.raise t)
  | take {b : Expr} : o.Chooses n b → Plans n (.take b)
  | propagate {operands : List Expr} : n.form.operands = operands →
      (Operands.analyze o.facts operands).throws = true → Plans n (.propagate operands)
  | dereference : n.form.isComputed = true → n.form.children ≠ [] → Plans n .dereference
  | run {m : Member} {values : List Value} : ((∃ args, n.form = .call none m args) ∨ n.form.isComputed = true) →
      o.settings.folding = true → o.facts.isPureMember m = true → Plans n (.run m values)
  | runAll {targets : List (Target Value)} {values : List Value} : n.form.isComputed = true →
      o.settings.folding = true → (∀ t ∈ targets, o.facts.isPureMember t.method = true) → Plans n (.runAll targets values)
  | fold {found : Build (Option Expr)} : n.form.isComputed = true → o.Finds n found → Plans n (.fold found)
  | decide {operand : Expr} {target : Ty} {mode : TestMode} {b : Bool} : n.form = .typeTest operand target mode →
      Plans n (.fold (pure (some (.boolean b))))
  | merge {test whenTrue whenFalse : Expr} : n.form = .conditional test whenTrue whenFalse →
      Plans n (.merge test whenTrue whenFalse)
  | select {value : Expr} {comparison : Option Member} {cases : List (Case Expr)} {known : Value}
      {fallback : Option Expr} : n.form = .switch value comparison cases fallback →
      o.facts.constantValue? value = some known → o.settings.folding = true →
      (∀ m ∈ comparison, o.facts.isPureMember m = true) → Plans n (.select comparison known (caseTests cases) fallback)
  | inline {callee body : Expr} {params : List Var} {args : List Expr} {values : List Value} :
      n.form = .invoke callee args → callee.form = .lambda params body → o.facts.Knows args values →
      Plans n (.inline params body args)
  | handle {body : Expr} {clauses : List (Clause Expr)} {cleanup onFault : Option Expr} :
      n.form = .tryCatch body clauses cleanup onFault → Plans n (.handle body clauses cleanup onFault)

/-- The optimizer with the same facts and settings for another host. -/
def hostedBy {τ μ : Type} (evaluators : Evaluators τ μ) (hooks : Hooks τ) : Optimizer τ μ :=
  ⟨o.facts, evaluators, hooks, o.settings⟩

@[simp] theorem hostedBy_facts {τ μ : Type} (evaluators : Evaluators τ μ) (hooks : Hooks τ) :
    (o.hostedBy evaluators hooks).facts = o.facts := rfl

/-- A rule, given for the optimizers of all hosts, carries out a plan for the node. -/
def Follows (n : Expr) (cx : Context)
    (x : {τ μ : Type} → Optimizer τ μ → (Expr → Context → Run τ Expr) → Run τ Expr) : Prop :=
  ∃ plan, o.Plans n plan ∧ ∀ {τ μ : Type} (evaluators : Evaluators τ μ) (hooks : Hooks τ) (again),
    x (o.hostedBy evaluators hooks) again = (o.hostedBy evaluators hooks).carryOut again n cx plan

variable {o} {n : Expr} {cx : Context}

theorem useMember_follows {receiver : Option Expr} {m : Member} {args : List Expr}
    (hops : n.form.operands = receiver.toList ++ args)
    (hkind : (receiver = none ∧ n.form = .call none m args) ∨ n.form.isComputed = true) :
    o.Follows n cx fun o' _ => o'.useMember n receiver m args cx := by
  let known := Operands.analyze o.facts (receiver.toList ++ args)
  by_cases h₁ : known.throws = true
  · exact ⟨.propagate _, .propagate hops h₁, fun _ _ _ => if_pos h₁⟩
  by_cases h₂ : o.dereferencesNull receiver known = true
  · refine ⟨.dereference, ?_, fun _ _ _ => (if_neg h₁).trans (if_pos h₂)⟩
    cases receiver with
    | none => simp [dereferencesNull] at h₂
    | some r =>
      rcases hkind with ⟨hr, _⟩ | hcomputed
      · cases hr
      · exact .dereference hcomputed (List.ne_nil_of_mem (Form.mem_children_of_operands (e := r) (by simp [hops])))
  by_cases h₃ : (known.allKnown && o.facts.isPureMember m && o.mayFold n.ty cx) = true
  · refine ⟨.run m known.values, ?_, fun _ _ _ => (if_neg h₁).trans ((if_neg h₂).trans (if_pos h₃))⟩
    simp only [mayFold, Bool.and_eq_true] at h₃
    exact .run (hkind.imp (fun h => ⟨args, h.2⟩) id) h₃.2.1 h₃.1.2
  · exact ⟨.keep, .keep, fun _ _ _ => (if_neg h₁).trans ((if_neg h₂).trans (if_neg h₃))⟩

theorem newInstance_follows {constructor : Option Member} {args : List Expr} (hform : n.form = .new constructor args) :
    o.Follows n cx fun o' _ => o'.newInstance n constructor args cx := by
  have hcomputed : n.form.isComputed = true := by rw [hform]; rfl
  let known := Operands.analyze o.facts args
  by_cases h₁ : known.throws = true
  · exact ⟨.propagate args, .propagate (by rw [hform]; rfl) h₁, fun _ _ _ => if_pos h₁⟩
  by_cases h₂ : (known.allKnown && o.mayFold n.ty cx) = true
  · have hfolding : o.settings.folding = true := by
      simp only [mayFold, Bool.and_eq_true] at h₂
      exact h₂.2.1
    cases constructor with
    | some m =>
      by_cases h₃ : o.facts.isPureMember m = true
      · exact ⟨.run m known.values, .run (.inr hcomputed) hfolding h₃,
          fun _ _ _ => (if_neg h₁).trans ((if_pos h₂).trans (if_pos h₃))⟩
      · exact ⟨.keep, .keep, fun _ _ _ => (if_neg h₁).trans ((if_pos h₂).trans (if_neg h₃))⟩
    | none =>
      by_cases h₃ : o.facts.isPureType n.ty = true
      · exact ⟨.fold n.foldDefault, .fold hcomputed (finds_default hform),
          fun _ _ _ => (if_neg h₁).trans ((if_pos h₂).trans (if_pos h₃))⟩
      · exact ⟨.keep, .keep, fun _ _ _ => (if_neg h₁).trans ((if_pos h₂).trans (if_neg h₃))⟩
  · exact ⟨.keep, .keep, fun _ _ _ => (if_neg h₁).trans (if_neg h₂)⟩

theorem newArray_follows {element : Ty} {source : ArraySource} {items : List Expr}
    (hform : n.form = .newArray element source items) :
    o.Follows n cx fun o' _ => o'.newArray n element source items cx := by
  have hcomputed : n.form.isComputed = true := by rw [hform]; rfl
  let known := Operands.analyze o.facts items
  by_cases h₁ : known.throws = true
  · exact ⟨.propagate items, .propagate (by rw [hform]; rfl) h₁, fun _ _ _ => if_pos h₁⟩
  by_cases h₂ : (known.allKnown && o.mayFold n.ty cx) = true
  · have hknown := Operands.analyze_known (by simpa using h₁) (Bool.and_eq_true_iff.1 h₂).1
    cases source with
    | items =>
      exact ⟨.fold (n.foldItems element known.values o.settings.arrayLimit), .fold hcomputed (finds_items hform hknown _),
        fun _ _ _ => (if_neg h₁).trans (if_pos h₂)⟩
    | bounds =>
      exact ⟨.fold (n.foldBounds element known.values o.settings.arrayLimit),
        .fold hcomputed (finds_bounds hform hknown.length_eq _), fun _ _ _ => (if_neg h₁).trans (if_pos h₂)⟩
  · exact ⟨.keep, .keep, fun _ _ _ => (if_neg h₁).trans (if_neg h₂)⟩

theorem readElement_follows {receiver : Expr} {indexer : Option Member} {args : List Expr}
    (hform : n.form = .index receiver indexer args false) :
    o.Follows n cx fun o' _ => o'.readElement n receiver indexer args cx := by
  have hcomputed : n.form.isComputed = true := by rw [hform]; rfl
  let known := Operands.analyze o.facts (receiver :: args)
  by_cases h₁ : known.throws = true
  · exact ⟨.propagate (receiver :: args), .propagate (by rw [hform]; rfl) h₁, fun _ _ _ => if_pos h₁⟩
  by_cases h₂ : o.dereferencesNull (some receiver) known = true
  · exact ⟨.dereference, .dereference hcomputed (by rw [hform]; exact List.cons_ne_nil _ _),
      fun _ _ _ => (if_neg h₁).trans (if_pos h₂)⟩
  by_cases h₃ : (known.allKnown && o.settings.folding) = true
  · cases indexer with
    | none =>
      cases hv : (Operands.analyze o.facts (receiver :: args)).values with
      | nil =>
        refine ⟨.keep, .keep, fun _ _ _ => (if_neg h₁).trans ((if_neg h₂).trans ((if_pos h₃).trans ?_))⟩
        rw [hostedBy_facts, hv]
        rfl
      | cons array indices =>
        have hknown := Operands.analyze_known (by simpa using h₁) (Bool.and_eq_true_iff.1 h₃).1
        rw [hv] at hknown
        obtain ⟨hreceiver, _⟩ := List.forall₂_cons.1 hknown
        refine ⟨.fold (n.foldElement array indices), .fold hcomputed (finds_element hform hreceiver indices),
          fun _ _ _ => (if_neg h₁).trans ((if_neg h₂).trans ((if_pos h₃).trans ?_))⟩
        rw [hostedBy_facts, hv]
        rfl
    | some m =>
      by_cases h₄ : (o.facts.isPureMember m && o.mayFold n.ty cx) = true
      · refine ⟨.run m known.values, ?_,
          fun _ _ _ => (if_neg h₁).trans ((if_neg h₂).trans ((if_pos h₃).trans (if_pos h₄)))⟩
        simp only [mayFold, Bool.and_eq_true] at h₄
        exact .run (.inr hcomputed) h₄.2.1 h₄.1
      · exact ⟨.keep, .keep, fun _ _ _ => (if_neg h₁).trans ((if_neg h₂).trans ((if_pos h₃).trans (if_neg h₄)))⟩
  · exact ⟨.keep, .keep, fun _ _ _ => (if_neg h₁).trans ((if_neg h₂).trans (if_neg h₃))⟩

theorem invokeLiteral_follows {callee body : Expr} {params : List Var} {args : List Expr}
    (hform : n.form = .invoke callee args) (hcallee : callee.form = .lambda params body) :
    o.Follows n cx fun o' again => o'.invokeLiteral again n params body args cx := by
  let known := Operands.analyze o.facts args
  by_cases h₁ : known.throws = true
  · exact ⟨.propagate args, .propagate (by rw [hform, Form.operands, hcallee]) h₁, fun _ _ _ => if_pos h₁⟩
  by_cases h₂ : known.allKnown = true
  · by_cases h₃ : o.throwsRegardless params body = true
    · refine ⟨.raise body, .raise ?_, fun _ _ _ => (if_neg h₁).trans ((if_pos h₂).trans (if_pos h₃))⟩
      obtain ⟨hthrows, hparams⟩ := Bool.and_eq_true_iff.1 h₃
      refine .body hform hcallee (fun x hx hfree => ?_) hthrows
      have := List.all_eq_true.1 hparams x hx
      simp [mem_freeVars, hfree] at this
    by_cases h₄ : o.settings.inlining = true
    · refine ⟨.inline params body args, .inline hform hcallee (Operands.analyze_known (by simpa using h₁) h₂),
        fun _ _ _ => (if_neg h₁).trans ((if_pos h₂).trans ((if_neg h₃).trans ((if_pos h₄).trans ?_)))⟩
      exact bind_congr fun found => by cases found <;> rfl
    · exact ⟨.keep, .keep, fun _ _ _ => (if_neg h₁).trans ((if_pos h₂).trans ((if_neg h₃).trans (if_neg h₄)))⟩
  · exact ⟨.keep, .keep, fun _ _ _ => (if_neg h₁).trans (if_neg h₂)⟩

theorem invokeDelegate_follows {callee : Expr} {args : List Expr} (hform : n.form = .invoke callee args)
    (hcallee : ∀ params body, callee.form ≠ .lambda params body) :
    o.Follows n cx fun o' _ => o'.invokeDelegate n callee args cx := by
  have hops : n.form.operands = callee :: args := by
    rw [hform, Form.operands]
    split
    · next h => exact absurd h (hcallee _ _)
    · rfl
  have hcomputed : n.form.isComputed = true := by
    rw [hform, Form.isComputed]
    split
    · next h => exact absurd h (hcallee _ _)
    · rfl
  let known := Operands.analyze o.facts (callee :: args)
  by_cases h₁ : known.throws = true
  · exact ⟨.propagate (callee :: args), .propagate hops h₁, fun _ _ _ => if_pos h₁⟩
  by_cases h₂ : o.dereferencesNull (some callee) known = true
  · exact ⟨.dereference, .dereference hcomputed (by rw [hform]; exact List.cons_ne_nil _ _),
      fun _ _ _ => (if_neg h₁).trans (if_pos h₂)⟩
  by_cases h₃ : (known.allKnown && o.mayFold n.ty cx) = true
  · by_cases h₄ : ∃ d arguments, (Operands.analyze o.facts (callee :: args)).values = .delegate d :: arguments ∧
        (!d.targets.isEmpty && d.targets.all (o.facts.isPureMember ·.method)) = true
    · obtain ⟨d, arguments, hv, hpure⟩ := h₄
      refine ⟨.runAll d.targets arguments, ?_,
        fun _ _ _ => (if_neg h₁).trans ((if_neg h₂).trans ((if_pos h₃).trans ?_))⟩
      · simp only [mayFold, Bool.and_eq_true] at h₃ hpure
        exact .runAll hcomputed h₃.2.1 (List.all_eq_true.1 hpure.2)
      · rw [hostedBy_facts, hv]
        exact if_pos hpure
    · refine ⟨.keep, .keep, fun _ _ _ => (if_neg h₁).trans ((if_neg h₂).trans ((if_pos h₃).trans ?_))⟩
      split
      · next d arguments hv => exact if_neg fun hpure => h₄ ⟨d, arguments, hv, hpure⟩
      · rfl
  · exact ⟨.keep, .keep, fun _ _ _ => (if_neg h₁).trans ((if_neg h₂).trans (if_neg h₃))⟩

theorem invoke_follows {callee : Expr} {args : List Expr} (hform : n.form = .invoke callee args) :
    o.Follows n cx fun o' again => o'.invoke again n callee args cx := by
  unfold invoke
  cases hcallee : callee.form with
  | lambda params body => exact invokeLiteral_follows hform hcallee
  | _ => exact invokeDelegate_follows hform (by simp [hcallee])

theorem conditional_follows {test whenTrue whenFalse : Expr} (hform : n.form = .conditional test whenTrue whenFalse) :
    o.Follows n cx fun o' _ => o'.conditional n test whenTrue whenFalse := by
  by_cases h₁ : o.facts.alwaysThrows test = true
  · exact ⟨.raise test, .raise (.conditional hform h₁), fun _ _ _ => if_pos h₁⟩
  cases h₂ : o.facts.truth? test with
  | some taken =>
    refine ⟨.take (if taken then whenTrue else whenFalse), .take (.conditional hform h₂),
      fun _ _ _ => (if_neg h₁).trans ?_⟩
    rw [hostedBy_facts, h₂]
    rfl
  | none =>
    by_cases h₃ : o.settings.flattening = true
    · refine ⟨.merge test whenTrue whenFalse, .merge hform, fun _ _ _ => (if_neg h₁).trans ?_⟩
      rw [hostedBy_facts, h₂]
      exact if_pos h₃
    · refine ⟨.keep, .keep, fun _ _ _ => (if_neg h₁).trans ?_⟩
      rw [hostedBy_facts, h₂]
      exact if_neg h₃

theorem logical_follows {op : Connective} {left right : Expr} (hform : n.form = .logical op left right) :
    o.Follows n cx fun o' _ => o'.logical n op left right := by
  by_cases h₁ : o.facts.alwaysThrows left = true
  · exact ⟨.raise left, .raise (.logical hform h₁), fun _ _ _ => if_pos h₁⟩
  cases h₂ : o.facts.truth? left with
  | some value =>
    refine ⟨.take (if value == (op == .and) then right else left), .take (.logical hform h₂),
      fun _ _ _ => (if_neg h₁).trans ?_⟩
    rw [hostedBy_facts, h₂]
    rfl
  | none =>
    refine ⟨.keep, .keep, fun _ _ _ => (if_neg h₁).trans ?_⟩
    rw [hostedBy_facts, h₂]
    rfl

theorem switch_follows {value : Expr} {comparison : Option Member} {cases : List (Case Expr)} {fallback : Option Expr}
    (hform : n.form = .switch value comparison cases fallback) :
    o.Follows n cx fun o' _ => o'.switch n value comparison cases fallback := by
  by_cases h₁ : o.facts.alwaysThrows value = true
  · exact ⟨.raise value, .raise (.switch hform h₁), fun _ _ _ => if_pos h₁⟩
  by_cases h₂ : o.settings.folding = true
  · cases h₃ : o.facts.constantValue? value with
    | none =>
      refine ⟨.keep, .keep, fun _ _ _ => (if_neg h₁).trans ((if_pos h₂).trans ?_)⟩
      rw [hostedBy_facts, h₃]
      rfl
    | some known =>
      cases comparison with
      | none =>
        refine ⟨.select none known (caseTests cases) fallback, .select hform h₃ h₂ (by simp),
          fun _ _ _ => (if_neg h₁).trans ((if_pos h₂).trans ?_)⟩
        rw [hostedBy_facts, h₃]
        rfl
      | some m =>
        by_cases h₄ : o.facts.isPureMember m = true
        · refine ⟨.select (some m) known (caseTests cases) fallback, .select hform h₃ h₂ (by simpa using h₄),
            fun _ _ _ => (if_neg h₁).trans ((if_pos h₂).trans ?_)⟩
          rw [hostedBy_facts, h₃]
          refine (if_pos h₄).trans (bind_congr fun answer => ?_)
          cases answer <;> rfl
        · refine ⟨.keep, .keep, fun _ _ _ => (if_neg h₁).trans ((if_pos h₂).trans ?_)⟩
          rw [hostedBy_facts, h₃]
          exact if_neg h₄
  · exact ⟨.keep, .keep, fun _ _ _ => (if_neg h₁).trans (if_neg h₂)⟩

theorem typeTest_follows {operand : Expr} {target : Ty} {mode : TestMode}
    (hform : n.form = .typeTest operand target mode) :
    o.Follows n cx fun o' _ => o'.typeTest n operand target mode := by
  by_cases h₁ : o.facts.alwaysThrows operand = true
  · exact ⟨.raise operand, .raise (.typeTest hform h₁), fun _ _ _ => if_pos h₁⟩
  by_cases h₂ : o.facts.isPure operand = true
  · have hdecide : ∀ outcome : Option Bool, o.Follows n cx fun _ _ => foldTo n (outcome.map Expr.boolean) := by
      intro outcome
      cases outcome with
      | none => exact ⟨.keep, .keep, fun _ _ _ => rfl⟩
      | some b => exact ⟨.fold (pure (some (.boolean b))), .decide hform, fun _ _ _ => rfl⟩
    cases mode with
    | isInstance =>
      obtain ⟨plan, hplan, heq⟩ := hdecide (o.isInstance? operand target)
      exact ⟨plan, hplan, fun ev hooks again => (if_neg h₁).trans ((if_pos h₂).trans (heq ev hooks again))⟩
    | isExact =>
      obtain ⟨plan, hplan, heq⟩ := hdecide (o.isExactly? operand target)
      exact ⟨plan, hplan, fun ev hooks again => (if_neg h₁).trans ((if_pos h₂).trans (heq ev hooks again))⟩
  · exact ⟨.keep, .keep, fun _ _ _ => (if_neg h₁).trans (if_neg h₂)⟩

theorem convert_follows {operand : Expr} (hform : n.form = .convert operand) :
    o.Follows n cx fun o' _ => o'.convert n operand := by
  by_cases h₁ : o.facts.alwaysThrows operand = true
  · exact ⟨.raise operand, .raise (.convert hform h₁), fun _ _ _ => if_pos h₁⟩
  by_cases h₂ : o.settings.folding = true
  · cases h₃ : o.facts.constantValue? operand with
    | none =>
      refine ⟨.keep, .keep, fun _ _ _ => (if_neg h₁).trans ((if_pos h₂).trans ?_)⟩
      rw [hostedBy_facts, h₃]
      rfl
    | some value =>
      by_cases h₄ : value.isCompatible n.ty = true
      · refine ⟨.fold (some <$> liftM (Expr.constant value n.ty)), .fold (by rw [hform]; rfl)
          (finds_converted hform h₃ h₄), fun _ _ _ => (if_neg h₁).trans ((if_pos h₂).trans ?_)⟩
        rw [hostedBy_facts, h₃]
        exact if_pos h₄
      · refine ⟨.keep, .keep, fun _ _ _ => (if_neg h₁).trans ((if_pos h₂).trans ?_)⟩
        rw [hostedBy_facts, h₃]
        exact if_neg h₄
  · exact ⟨.keep, .keep, fun _ _ _ => (if_neg h₁).trans (if_neg h₂)⟩

/-- **Plans**: the rule for a node carries out a plan, the same for all hosts. -/
theorem exists_plan (o : Optimizer σ κ) (n : Expr) (cx : Context) : o.Follows n cx fun o' again => o'.rule again n cx := by
  unfold rule
  cases hform : n.form with
  | constant _ | var _ | defaultOf | lambda _ _ | throw _ | block _ _ | jump _ _ _ =>
    exact ⟨.keep, .keep, fun _ _ _ => rfl⟩
  | convert operand => exact convert_follows hform
  | call receiver method args =>
    refine useMember_follows (by rw [hform]; rfl) ?_
    rw [hform]
    cases receiver with
    | none => exact .inl ⟨rfl, rfl⟩
    | some r => exact .inr rfl
  | access receiver member =>
    exact useMember_follows (by rw [hform]; simp [Form.operands]) (.inr (by rw [hform]; rfl))
  | new constructor args => exact newInstance_follows hform
  | newArray element source items => exact newArray_follows hform
  | index receiver indexer args assigned =>
    cases assigned with
    | true => exact ⟨.keep, .keep, fun _ _ _ => rfl⟩
    | false => exact readElement_follows hform
  | invoke callee args => exact invoke_follows hform
  | conditional test whenTrue whenFalse => exact conditional_follows hform
  | logical op left right => exact logical_follows hform
  | switch value comparison cases fallback => exact switch_follows hform
  | typeTest operand target mode => exact typeTest_follows hform
  | tryCatch body clauses cleanup onFault =>
    exact ⟨.handle body clauses cleanup onFault, .handle hform, fun _ _ _ => rfl⟩

theorem exists_rule_eq (o : Optimizer σ κ) (n : Expr) (cx : Context) :
    ∃ plan, o.Plans n plan ∧ ∀ again, o.rule again n cx = o.carryOut again n cx plan := by
  obtain ⟨plan, hplan, hrule⟩ := o.exists_plan n cx
  exact ⟨plan, hplan, hrule o.evaluators o.hooks⟩

end Optimizer

end TypedTree
