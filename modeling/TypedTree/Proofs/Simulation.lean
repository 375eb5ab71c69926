import TypedTree.Proofs.Plans
import TypedTree.Proofs.TwoRuns
import TypedTree.Proofs.Typing

/-!
# One optimizer, two hosts

An optimizer asks its host to compile and to call members and asks the hooks about nodes. Here it is served by two hosts. When
they answer alike wherever the optimizer asks them (`Optimizer.ServedAlike`), its runs proceed alike (`Optimizer.visit_alike`,
`Optimizer.optimize_alike`). What makes this worth while is how little it takes: the hosts need to agree on pure members only,
and only when folding is allowed, since by `Optimizer.exists_plan` no rule plans to run anything else.

Which states of the hosts belong together is up to a relation `S`, and which callables up to a relation `R`; both may depend
on a world that moves on, such as the list of everything that was asked for.
-/

namespace TypedTree

variable {σ τ κ μ α α' β β' : Type} {K : Type} [Preorder K] {S : K → σ → τ → Prop} {R : K → κ → μ → Prop} {k : K}

/-! ### States and operations of two hosts -/

/-- The worlds have the same supply of references, and the states of the hosts belong together. -/
structure World.Linked (S : K → σ → τ → Prop) (k : K) (w : World σ) (w' : World τ) : Prop where
  references : w.references = w'.references
  host : S k w.host w'.host

/-- The runs have got equally far, and the states of the hosts belong together. -/
structure Progress.Linked (S : K → σ → τ → Prop) (k : K) (s : Progress σ) (s' : Progress τ) : Prop where
  nodes : s.nodes = s'.nodes
  tally : s.tally = s'.tally
  world : s.world.Linked S k s'.world

/-- From the world `k` on, the operations of the two hosts give answers as `P` says, in states that belong together. -/
def Effect.Alike (S : K → σ → τ → Prop) (k : K) (x : Effect σ α) (x' : Effect τ α') (P : K → α → α' → Prop) : Prop :=
  ∀ k₁, k ≤ k₁ → ∀ w w', World.Linked S k₁ w w' →
    ∃ k₂, k₁ ≤ k₂ ∧ World.Linked S k₂ (x w).2 (x' w').2 ∧ P k₂ (x w).1 (x' w').1

theorem Effect.alike_pure {a : α} {a' : α'} {P : K → α → α' → Prop} (h : ∀ k', k ≤ k' → P k' a a') :
    Effect.Alike S k (pure a) (pure a') P :=
  fun k₁ hk _ _ hw => ⟨k₁, le_rfl, hw, h k₁ hk⟩

theorem Effect.alike_bind {x : Effect σ α} {x' : Effect τ α'} {f : α → Effect σ β} {f' : α' → Effect τ β'}
    {P : K → α → α' → Prop} {Q : K → β → β' → Prop} (hx : Effect.Alike S k x x' P)
    (hf : ∀ k', k ≤ k' → ∀ a a', P k' a a' → Effect.Alike S k' (f a) (f' a') Q) :
    Effect.Alike S k (x >>= f) (x' >>= f') Q := by
  intro k₁ hk w w' hw
  obtain ⟨k₂, hk₂, hw₂, hP⟩ := hx k₁ hk w w' hw
  obtain ⟨k₃, hk₃, hw₃, hQ⟩ := hf k₂ (hk.trans hk₂) _ _ hP k₂ le_rfl _ _ hw₂
  exact ⟨k₃, hk₂.trans hk₃, hw₃, hQ⟩

/-- Both hosts compiled the member, to callables that belong together, or neither did. -/
inductive Compiled (R : κ → μ → Prop) : Except Fault κ → Except Fault μ → Prop where
  | ok {f : κ} {f' : μ} : R f f' → Compiled R (.ok f) (.ok f')
  | error {fault fault' : Fault} : Compiled R (.error fault) (.error fault')

/-- The two hosts of the optimizer answer alike, as far as it asks them: they compile the pure members when folding is allowed,
and call what they compiled. -/
structure Optimizer.ServedAlike (o : Optimizer σ κ) (evaluators : Evaluators τ μ) (hooks : Hooks τ) (S : K → σ → τ → Prop)
    (R : K → κ → μ → Prop) : Prop where
  lasting {k k' : K} {f : κ} {f' : μ} : k ≤ k' → R k f f' → R k' f f'
  compile (k : K) {m : Member} : o.settings.folding = true → o.facts.isPureMember m = true →
    Effect.Alike S k (o.evaluators.compile m) (evaluators.compile m) fun k' => Compiled (R k')
  invoke {k : K} {f : κ} {f' : μ} (values : List Value) : o.settings.folding = true → R k f f' →
    Effect.Alike S k (o.evaluators.invoke f values) (evaluators.invoke f' values) fun _ => Eq
  admits (k : K) (e : Expr) : Effect.Alike S k (o.hooks.admits e) (hooks.admits e) fun _ => Eq
  before (k : K) (e : Expr) : Effect.Alike S k (o.hooks.before e) (hooks.before e) fun _ => Eq
  after (k : K) (e : Expr) : Effect.Alike S k (o.hooks.after e) (hooks.after e) fun _ => Eq
  allowance : hooks.allowance = o.hooks.allowance

/-! ### Runs with equal results -/

namespace Run

/-- From the world `k` on, the runs proceed alike and give equal results. -/
def Same (S : K → σ → τ → Prop) (k : K) (x : Run σ α) (x' : Run τ α) : Prop :=
  Alike (Progress.Linked S) k x x' fun _ => Eq

theorem same_pure (a : α) : Same S k (pure a) (pure a) := alike_pure fun _ _ => rfl

theorem same_bind {x : Run σ α} {x' : Run τ α} {f : α → Run σ β} {f' : α → Run τ β} (hx : Same S k x x')
    (hf : ∀ k', k ≤ k' → ∀ a, Same S k' (f a) (f' a)) : Same S k (x >>= f) (x' >>= f') := by
  apply alike_bind hx
  rintro k' hk a _ rfl
  exact hf k' hk a

theorem same_fresh (x : Fresh .node α) : Same S k (liftM x) (liftM x) := by
  rintro k₁ _ ⟨nodes, world, tally⟩ ⟨_, world', _⟩ ⟨rfl, rfl, hworld⟩
  exact .result le_rfl ⟨rfl, rfl, hworld⟩ rfl

theorem same_build (x : Build α) : Same S k (liftM x) (liftM x) := by
  rintro k₁ _ ⟨nodes, ⟨references, host⟩, tally⟩ ⟨_, ⟨_, host'⟩, _⟩ ⟨rfl, rfl, rfl, hhost⟩
  exact .result le_rfl ⟨rfl, rfl, rfl, hhost⟩ rfl

theorem same_fallible (x : Fallible α) : Same S k (liftM x) (liftM x) := by
  rintro k₁ _ ⟨nodes, world, tally⟩ ⟨_, world', _⟩ ⟨rfl, rfl, hworld⟩
  simp only [liftM, monadLift, MonadLift.monadLift]
  cases x nodes with
  | ok p => exact .result le_rfl ⟨rfl, rfl, hworld⟩ rfl
  | error fault => exact .halted le_rfl ⟨rfl, rfl, hworld⟩

theorem same_modify {f : Progress σ → Progress σ} {f' : Progress τ → Progress τ}
    (h : ∀ {k} s s', Progress.Linked S k s s' → Progress.Linked S k (f s) (f' s')) : Same S k (modify f) (modify f') :=
  fun _ _ s s' hs => .result le_rfl (h s s' hs) rfl

theorem same_record (r : Reduction) : Same S k (Optimizer.record r) (Optimizer.record r) :=
  same_modify fun _ _ h => ⟨h.nodes, by rw [h.tally], h.world⟩

theorem alike_effect {x : Effect σ α} {x' : Effect τ α'} {P : K → α → α' → Prop} (h : Effect.Alike S k x x' P) :
    Alike (Progress.Linked S) k (liftM x) (liftM x') P := by
  rintro k₁ hk ⟨nodes, world, tally⟩ ⟨_, world', _⟩ ⟨rfl, rfl, hworld⟩
  obtain ⟨k₂, hk₂, hw, hP⟩ := h k₁ hk world world' hworld
  exact .result hk₂ ⟨rfl, rfl, hw⟩ hP

theorem same_ite {c : Prop} [Decidable c] {x y : Run σ α} {x' y' : Run τ α} (hx : Same S k x x') (hy : Same S k y y') :
    Same S k (if c then x else y) (if c then x' else y') := by
  split
  · exact hx
  · exact hy

theorem same_recorded {x : Run σ α} {x' : Run τ α} (h : Same S k x x') (why : α → Reduction) :
    Same S k (do let a ← x; Optimizer.record (why a); return a) (do let a ← x'; Optimizer.record (why a); return a) :=
  same_bind h fun _ _ a => same_bind (same_record _) fun _ _ _ => same_pure a

theorem same_mapM {f : β → Run σ α} {f' : β → Run τ α} {bs : List β} (h : ∀ k', k ≤ k' → ∀ b ∈ bs, Same S k' (f b) (f' b)) :
    Same S k (bs.mapM f) (bs.mapM f') := by
  induction bs generalizing k with
  | nil => exact same_pure []
  | cons b bs ih =>
    rw [List.mapM_cons, List.mapM_cons]
    apply same_bind (h k le_rfl b List.mem_cons_self)
    intro k₁ hk₁ a
    apply same_bind (ih fun k' hk' b hb => h k' (hk₁.trans hk') b (List.mem_cons_of_mem _ hb))
    intro k₂ _ as
    exact same_pure (a :: as)

theorem same_mapM_form {f : β → Run σ α} {f' : β → Run τ α} {form : Form β}
    (h : ∀ k', k ≤ k' → ∀ b ∈ form.children, Same S k' (f b) (f' b)) : Same S k (form.mapM f) (form.mapM f') := by
  have hmap : (alikeLogic (Progress.Linked S)).reaches k (form.mapM fun b => (⟨f b, f' b⟩ : Twin (Run σ) (Run τ) α))
      fun _ form' => Form.Rel (fun _ _ => True) form form' := by
    refine Form.mapM_reaches _ (R := fun _ _ _ => True) (fun _ _ _ _ _ h => h) ?_
    intro b hb k' hk'
    exact (h k' hk' b hb).imp fun _ _ _ _ heq => ⟨heq, trivial⟩
  rw [Form.mapM_twin] at hmap
  exact Alike.imp hmap fun _ _ _ _ h => h.1

end Run

/-! ### Plans -/

namespace Optimizer

open Run

variable {o : Optimizer σ κ} {evaluators : Evaluators τ μ} {hooks : Hooks τ} {cx : Context} {n e : Expr}

theorem propagateThrow_same (operands : List Expr) (known : Operands) :
    Same S k (o.propagateThrow n operands known) ((o.hostedBy evaluators hooks).propagateThrow n operands known) := by
  unfold propagateThrow
  split
  · exact same_pure n
  · apply same_bind (same_fallible _)
    intro k₁ _ coerced
    split
    · exact same_recorded (same_pure coerced) _
    · exact same_recorded (same_fresh _) _

theorem foldTo_same (found : Option Expr) : Same S k (foldTo n found) (foldTo n found) := by
  cases found with
  | none => exact same_pure n
  | some folded => exact same_bind (same_record _) fun _ _ _ => same_pure folded

theorem simplifyClause_same (c : Clause Expr) :
    Same S k (o.simplifyClause c) ((o.hostedBy evaluators hooks).simplifyClause c) := by
  have hbinding : Same S k (dropBinding c) (dropBinding c) :=
    same_ite (same_recorded (same_fresh _) _) (same_pure c)
  apply same_bind hbinding
  intro k₁ _ c₁
  have hfilter : Same S k₁ (o.dropFilter c₁) ((o.hostedBy evaluators hooks).dropFilter c₁) :=
    same_ite (same_recorded (same_fresh _) _) (same_pure c₁)
  apply same_bind hfilter
  intro k₂ _ c₂
  exact same_ite (same_bind (same_record _) fun _ _ _ => same_pure none) (same_pure (some c₂))

theorem tryCatch_same (body : Expr) (clauses : List (Clause Expr)) (cleanup onFault : Option Expr) :
    Same S k (o.tryCatch n body clauses cleanup onFault)
      ((o.hostedBy evaluators hooks).tryCatch n body clauses cleanup onFault) := by
  have hclauses : Same S k (o.simplifyClauses clauses) ((o.hostedBy evaluators hooks).simplifyClauses clauses) :=
    same_bind (same_mapM fun _ _ c _ => simplifyClause_same c) fun _ _ founds => same_pure (founds.filterMap id)
  apply same_bind hclauses
  intro k₁ _ kept
  exact same_ite (same_recorded (same_fallible _) _) (same_ite (same_pure n) (same_fresh _))

section Served

variable (ho : o.ServedAlike evaluators hooks S R) (hfold : o.settings.folding = true)

include ho hfold

theorem compile?_alike {m : Member} (hm : o.facts.isPureMember m = true) : Alike (Progress.Linked S) k (o.compile? m)
    ((o.hostedBy evaluators hooks).compile? m) fun k' => Option.Rel (R k') := by
  apply alike_bind (alike_effect (ho.compile k hfold hm))
  intro k₁ _ answer answer' hanswer
  cases hanswer with
  | ok hR => exact alike_pure fun _ hk => .some (ho.lasting hk hR)
  | error => exact alike_bind (same_record _) fun _ _ _ _ _ => alike_pure fun _ _ => .none

theorem runMember_same {m : Member} (hm : o.facts.isPureMember m = true) (values : List Value) :
    Same S k (o.runMember n m values) ((o.hostedBy evaluators hooks).runMember n m values) := by
  apply alike_bind (compile?_alike ho hfold hm)
  intro k₁ _ answer answer' hanswer
  cases hanswer with
  | none => exact same_pure n
  | some hR =>
    apply same_bind (alike_effect (ho.invoke values hfold hR))
    intro k₂ _ outcome
    exact same_recorded (same_fallible _) _

/-- **Targets**: the induction is on the targets that are left. -/
theorem invokeAll_alike {targets : List (Target Value)} (ht : ∀ t ∈ targets, o.facts.isPureMember t.method = true)
    (values : List Value) (last : Option Value) : Effect.Alike S k (o.evaluators.invokeAll values targets last)
      (evaluators.invokeAll values targets last) fun _ => Eq := by
  induction targets generalizing k last with
  | nil => exact Effect.alike_pure fun _ _ => rfl
  | cons target targets ih =>
    apply Effect.alike_bind (ho.compile k hfold (ht target List.mem_cons_self))
    intro k₁ _ answer answer' hanswer
    cases hanswer with
    | error => exact Effect.alike_pure fun _ _ => rfl
    | ok hR =>
      apply Effect.alike_bind (ho.invoke _ hfold hR)
      rintro k₂ _ outcome _ rfl
      cases outcome with
      | error raised => exact Effect.alike_pure fun _ _ => rfl
      | ok value => exact ih (fun t h => ht t (List.mem_cons_of_mem _ h)) (some value)

theorem compareWith_same {comparison : Option κ} {comparison' : Option μ} (h : Option.Rel (R k) comparison comparison')
    (value test : Value) :
    Same S k (o.compareWith comparison value test) ((o.hostedBy evaluators hooks).compareWith comparison' value test) := by
  cases h with
  | none => exact same_pure _
  | some hR =>
    rw [compareWith_some, compareWith_some, map_eq_pure_bind, map_eq_pure_bind]
    exact same_bind (alike_effect (ho.invoke _ hfold hR)) fun _ _ outcome => same_pure _

/-- **Choosing a case**: the induction is on the tests that are left. -/
theorem selectCase_same {comparison : Option κ} {comparison' : Option μ} (h : Option.Rel (R k) comparison comparison')
    (value : Value) (fallback : Option Expr) (tests : List (Expr × Expr)) :
    Same S k (o.selectCase n comparison value fallback tests)
      ((o.hostedBy evaluators hooks).selectCase n comparison' value fallback tests) := by
  have hput : ∀ {k : K} (a : Expr) (why : Reduction), Same S k
      (do let r ← a.retype n.ty; record why; return r) (do let r ← a.retype n.ty; record why; return r) :=
    fun a why => same_recorded (same_fallible _) fun _ => why
  induction tests generalizing k with
  | nil =>
    cases fallback with
    | some body => exact hput body .branch
    | none => exact same_recorded (same_fresh _) _
  | cons p tests ih =>
    obtain ⟨test, body⟩ := p
    by_cases h₁ : o.facts.alwaysThrows test = true
    · simp only [selectCase, hostedBy_facts, h₁, if_true]
      exact hput test .threw
    cases h₂ : o.facts.constantValue? test with
    | none =>
      simp only [selectCase, hostedBy_facts, h₁, h₂, if_false, Bool.false_eq_true]
      exact same_pure n
    | some candidate =>
      have h₁ : o.facts.alwaysThrows test = false := by simpa using h₁
      rw [selectCase_cons h₁ h₂, selectCase_cons (o := o.hostedBy evaluators hooks) h₁ h₂]
      apply same_bind (compareWith_same ho hfold h value candidate)
      intro k₁ hk₁ m
      rcases m with (_ | _) | raised | _
      · exact ih (optionRel_imp h fun _ _ _ => ho.lasting hk₁)
      · exact hput body .branch
      · exact same_recorded (same_fresh _) _
      · exact same_pure n

end Served

/-- **Plans** are carried out alike by both hosts, if what inlining makes is visited alike. -/
theorem carryOut_same (ho : o.ServedAlike evaluators hooks S R) {again : Expr → Context → Run σ Expr}
    {again' : Expr → Context → Run τ Expr} (hagain : ∀ k' reduced, k ≤ k' → Same S k' (again reduced cx) (again' reduced cx))
    {plan : Plan} (hplan : o.Plans n plan) :
    Same S k (o.carryOut again n cx plan) ((o.hostedBy evaluators hooks).carryOut again' n cx plan) := by
  cases hplan with
  | keep => exact same_pure n
  | raise | take => exact same_recorded (same_fallible _) _
  | propagate => exact propagateThrow_same _ _
  | dereference => exact same_recorded (same_build _) _
  | run _ hfold hm => exact runMember_same ho hfold hm _
  | runAll _ hfold ht =>
    apply same_bind (alike_effect (invokeAll_alike ho hfold ht _ none))
    intro k₁ _ answer
    cases answer with
    | none => exact same_bind (same_record _) fun _ _ _ => same_pure n
    | some outcome => exact same_bind (same_fallible _) fun _ _ r => foldTo_same (some r)
  | fold | decide => exact same_bind (same_build _) fun _ _ found => foldTo_same found
  | merge =>
    apply same_bind (same_fresh _)
    intro k₁ _ found
    cases found with
    | none => exact same_pure n
    | some flat => exact same_bind (same_record _) fun _ _ _ => same_pure flat
  | @select _ comparison _ _ _ _ _ hfold hm =>
    cases comparison with
    | none => exact selectCase_same ho hfold .none _ _ _
    | some m =>
      apply alike_bind (compile?_alike ho hfold (hm m rfl))
      intro k₁ _ answer answer' hanswer
      cases hanswer with
      | none => exact same_pure n
      | some hR => exact selectCase_same ho hfold (.some hR) _ _ _
  | inline =>
    apply same_bind (same_fresh _)
    intro k₁ hk₁ found
    cases found with
    | none => exact same_pure n
    | some r =>
      apply same_bind (same_fallible _)
      intro k₂ hk₂ reduced
      apply same_bind (same_record _)
      intro k₃ hk₃ _
      exact hagain k₃ reduced (hk₁.trans (hk₂.trans hk₃))
  | handle => exact tryCatch_same _ _ _ _

/-! ### Visits -/

/-- The visits of a tree by the optimizers of two hosts proceed alike. -/
def VisitsAlike (S : K → σ → τ → Prop) (visit : Expr → Context → Run σ Expr) (visit' : Expr → Context → Run τ Expr) : Prop :=
  ∀ k e cx, Same S k (visit e cx) (visit' e cx)

variable (ho : o.ServedAlike evaluators hooks S R) {again : Expr → Context → Run σ Expr} {again' : Expr → Context → Run τ Expr}

include ho

theorem finish_same (hagain : VisitsAlike S again again') (e n : Expr) (cx : Context) :
    Same S k (o.finish again e n cx) ((o.hostedBy evaluators hooks).finish again' e n cx) := by
  obtain ⟨plan, hplan, hrule⟩ := o.exists_plan n cx
  have hleft : o.rule again n cx = o.carryOut again n cx plan := hrule o.evaluators o.hooks again
  have hright : (o.hostedBy evaluators hooks).rule again' n cx = (o.hostedBy evaluators hooks).carryOut again' n cx plan :=
    hrule evaluators hooks again'
  unfold finish
  rw [hleft, hright]
  apply same_bind (carryOut_same ho (fun k' reduced _ => hagain k' reduced cx) hplan)
  intro k₁ _ r
  split
  · exact alike_throw
  split
  · exact same_pure r
  · exact alike_effect (ho.after k₁ r)

/-- **One pass**: the induction is on the tree; what takes the place of a node before its rule is left to `again`. -/
theorem pass_same (hagain : VisitsAlike S again again') :
    VisitsAlike S (o.pass again) ((o.hostedBy evaluators hooks).pass again') := by
  intro k e
  induction e using Expr.inductionOn generalizing k with
  | node e ih =>
    intro cx
    rw [pass_eq, pass_eq]
    apply same_bind (alike_effect (ho.admits k e))
    intro k₁ _ admitted
    split
    · apply same_bind (alike_effect (ho.before k₁ e))
      intro k₂ _ start
      have hfinish : ∀ k' node, Same S k' (o.finish again e node cx) ((o.hostedBy evaluators hooks).finish again' e node cx) :=
        fun _ node => finish_same ho hagain e node cx
      split
      · refine same_bind (same_mapM_form fun k' _ p hp => ?_) fun _ _ form => same_bind (same_fresh _) fun _ _ => hfinish _
        exact ih p.1 (o.facts.mem_of_inContext hp) k' p.2
      · refine same_bind (same_mapM_form fun k' _ p _ => ?_) fun _ _ form => same_bind (same_fresh _) fun _ _ => hfinish _
        exact hagain k' p.1 p.2
    · exact same_pure e

theorem visitWithin_same {last : Expr → Context → Run σ Expr} {last' : Expr → Context → Run τ Expr}
    (hlast : VisitsAlike S last last') (fuel : Nat) :
    VisitsAlike S (o.visitWithin last fuel) ((o.hostedBy evaluators hooks).visitWithin last' fuel) := by
  induction fuel with
  | zero => exact pass_same ho hlast
  | succ fuel ih => exact pass_same ho ih

/-- **Visits** proceed alike for two hosts that serve the optimizer alike. -/
theorem visit_alike : VisitsAlike S o.visit (o.hostedBy evaluators hooks).visit := by
  have hmade : VisitsAlike S o.visitMade (o.hostedBy evaluators hooks).visitMade := by
    intro k e cx
    exact visitWithin_same ho (fun _ _ _ => alike_throw) e.lambdaCount k e cx
  intro k e cx
  have hvisit := visitWithin_same ho hmade o.hooks.allowance k e cx
  rw [← ho.allowance] at hvisit
  rw [visit, ← ho.allowance]
  exact hvisit

/-- **Whole runs** proceed alike for two hosts that serve the optimizer alike. -/
theorem optimize_alike (k : K) (e : Expr) : Same S k (o.optimize e) ((o.hostedBy evaluators hooks).optimize e) := by
  have hcount : ∀ (k : K) (r : Expr), Same S k
      (do modify fun s : Progress σ => { s with tally := { s.tally with nodesAfter := r.nodeCount } }; return r)
      (do modify fun s : Progress τ => { s with tally := { s.tally with nodesAfter := r.nodeCount } }; return r) := by
    intro k r
    exact same_bind (same_modify fun _ _ h => ⟨h.nodes, by rw [h.tally], h.world⟩) fun _ _ _ => same_pure r
  refine same_bind (same_modify ?_) fun k₁ _ _ => ?_
  · intro _ s s' h
    exact ⟨h.nodes, rfl, h.world⟩
  refine same_ite ?_ ?_
  · exact same_bind (same_pure e) fun k₂ _ r => hcount k₂ r
  · exact same_bind (visit_alike ho k₁ e .plain) fun k₂ _ r => hcount k₂ r

end Optimizer

end TypedTree
