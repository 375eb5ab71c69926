import Mathlib.Data.Finset.Card
import TypedTree.Optimize.Session
import TypedTree.Proofs.Simulation

/-!
# A cache is not noticed

A cache in front of a registry answers as the registry does, whatever was compiled before and however often it was cleared.
What it remembers are the members that were compiled with success since it was last cleared, each once (`Cache.Mirrors`); it
counts a miss for every member that it does not remember at that moment, and a hit for the others.

An optimizer that compiles through a cache is therefore served as well as without one (`cached_servedAlike`), and sessions
with and without a cache cannot be told apart by what comes of their runs (`Session.reports_eq`).
-/

namespace TypedTree

variable {σ κ : Type}

namespace Cache

/-! ### Operations on a cache -/

/-- What is done with a cache. -/
inductive Op where
  /-- A member is compiled through it. -/
  | compile (member : Member)
  /-- Everything is forgotten. -/
  | clear
deriving DecidableEq, Repr

/-- The member that is compiled. -/
def Op.member? : Op → Option Member
  | .compile m => some m
  | .clear => none

/-- What a cache in front of a registry answers for a member. -/
def answer (r : Registry κ) (c : Cache κ) (member : Member) : Except Fault κ := (c.compile (m := Id) r.compile member).1

/-- A cache in front of a registry after an operation. -/
def step (r : Registry κ) (c : Cache κ) : Op → Cache κ
  | .compile member => (c.compile (m := Id) r.compile member).2
  | .clear => c.clear

/-- A cache in front of a registry after operations. -/
def after (r : Registry κ) (ops : List Op) : Cache κ := ops.foldl (step r) .empty

/-- The members that were compiled with success since the last clearing. -/
def compiled (r : Registry κ) (ops : List Op) : Finset Member :=
  ((ops.reverse.takeWhile (· ≠ .clear)).filterMap Op.member?).toFinset.filter fun m => (r.compile m).isOk

/-- Whether the operation at a place compiles a member that was not compiled with success since the last clearing before. -/
def isMiss (r : Registry κ) (ops : List Op) (place : Nat) : Bool :=
  (ops[place]?.bind Op.member?).any (· ∉ compiled r (ops.take place))

variable {r : Registry κ} {c : Cache κ} {ms : Finset Member} {m : Member} {ops : List Op}

theorem compiled_clear : compiled r (ops ++ [.clear]) = ∅ := by simp [compiled]

theorem compiled_compile : compiled r (ops ++ [.compile m]) =
    if (r.compile m).isOk then insert m (compiled r ops) else compiled r ops := by
  simp [compiled, Op.member?, Finset.filter_insert]

theorem isOk_of_compiled (hm : m ∈ compiled r ops) : (r.compile m).isOk = true := (Finset.mem_filter.1 hm).2

/-- The places up to the last operation, and the last one. -/
theorem countP_isMiss (op : Op) : (List.range (ops ++ [op]).length).countP (isMiss r (ops ++ [op])) =
    (List.range ops.length).countP (isMiss r ops) + if op.member?.any (· ∉ compiled r ops) then 1 else 0 := by
  have hinit : ∀ place ∈ List.range ops.length, isMiss r (ops ++ [op]) place = isMiss r ops place := by
    intro place hplace
    have hlt : place < ops.length := List.mem_range.1 hplace
    simp only [isMiss, List.getElem?_append_left hlt, List.take_append_of_le_length hlt.le]
  have hlast : isMiss r (ops ++ [op]) ops.length = op.member?.any (· ∉ compiled r ops) := by simp [isMiss]
  rw [List.length_append, List.length_singleton, List.range_succ, List.countP_append, List.countP_singleton, hlast,
    List.countP_congr fun place hplace => by rw [hinit place hplace]]

/-! ### What a cache remembers -/

theorem compile_of_remembered {f : κ} (h : c.entries.lookup m = some f) :
    c.compile (m := Id) r.compile m = (.ok f, { c with hits := c.hits + 1 }) := by
  rw [compile, h]
  rfl

/-- A member that is not remembered is left to the registry; faults are not remembered. -/
theorem compile_of_forgotten (h : c.entries.lookup m = none) : c.compile (m := Id) r.compile m =
    (r.compile m, { c with
      entries := ((r.compile m).toOption.map (m, ·)).toList ++ c.entries
      misses := c.misses + 1 }) := by
  rw [compile, h]
  cases r.compile m <;> rfl

/-- The cache remembers the members in `ms`, each once, as the registry compiles them. -/
structure Mirrors (r : Registry κ) (c : Cache κ) (ms : Finset Member) : Prop where
  lookup (m : Member) : c.entries.lookup m = if m ∈ ms then (r.compile m).toOption else none
  compiles (m : Member) : m ∈ ms → (r.compile m).isOk = true
  size : c.size = ms.card

namespace Mirrors

theorem empty (c : Cache κ) : Mirrors r c.clear ∅ := ⟨fun _ => rfl, fun _ h => absurd h (Finset.notMem_empty _), rfl⟩

/-- A member that is remembered is found as the registry compiles it. -/
theorem exists_found (h : Mirrors r c ms) (hm : m ∈ ms) : ∃ f, r.compile m = .ok f ∧ c.entries.lookup m = some f := by
  have hok := h.compiles m hm
  have hlookup := h.lookup m
  rw [if_pos hm] at hlookup
  cases hcompile : r.compile m with
  | error fault => rw [hcompile] at hok; cases hok
  | ok f => exact ⟨f, rfl, by rw [hlookup, hcompile]; rfl⟩

theorem forgotten (h : Mirrors r c ms) (hm : m ∉ ms) : c.entries.lookup m = none := (h.lookup m).trans (if_neg hm)

/-- **Answers**: the cache answers as the registry does. -/
theorem answer_eq (h : Mirrors r c ms) (m : Member) : c.answer r m = r.compile m := by
  by_cases hm : m ∈ ms
  · obtain ⟨f, hcompile, hfound⟩ := h.exists_found hm
    rw [answer, compile_of_remembered hfound, hcompile]
  · rw [answer, compile_of_forgotten (h.forgotten hm)]

/-- **One step**: what was compiled with success is remembered, and what is remembered is a hit. -/
theorem step_compile (h : Mirrors r c ms) (m : Member) :
    Mirrors r (c.step r (.compile m)) (if (r.compile m).isOk then insert m ms else ms) ∧
      (c.step r (.compile m)).hits = c.hits + (if m ∉ ms then 0 else 1) ∧
      (c.step r (.compile m)).misses = c.misses + (if m ∉ ms then 1 else 0) := by
  by_cases hm : m ∈ ms
  · obtain ⟨f, hcompile, hfound⟩ := h.exists_found hm
    rw [step, compile_of_remembered hfound, Finset.insert_eq_of_mem hm, ite_self]
    exact ⟨⟨h.lookup, h.compiles, h.size⟩, by simp [hm], by simp [hm]⟩
  · rw [step, compile_of_forgotten (h.forgotten hm)]
    refine ⟨?_, by simp [hm], by simp [hm]⟩
    cases hcompile : r.compile m with
    | error fault => exact ⟨h.lookup, h.compiles, h.size⟩
    | ok f =>
      refine ⟨fun m' => ?_, ?_, ?_⟩
      · show List.lookup m' ((m, f) :: c.entries) = _
        rw [List.lookup_cons]
        by_cases heq : m' = m
        · simp [heq, hcompile, Except.isOk, Except.toBool, Except.toOption]
        · rw [beq_false_of_ne heq]
          simp [heq, h.lookup, Except.isOk, Except.toBool]
      · intro m' hm'
        obtain rfl | hm' := Finset.mem_insert.1 hm'
        · rw [hcompile]; rfl
        · exact h.compiles m' hm'
      · show c.entries.length + 1 = _
        rw [if_pos (by rfl), Finset.card_insert_of_notMem hm, ← h.size]
        rfl

end Mirrors

theorem after_append (op : Op) : after r (ops ++ [op]) = (after r ops).step r op := by simp [after]

/-- **Runs**: a cache remembers what was compiled with success since the last clearing. -/
theorem mirrors_after (r : Registry κ) (ops : List Op) : Mirrors r (after r ops) (compiled r ops) := by
  induction ops using List.reverseRecOn with
  | nil => exact .empty .empty
  | append_singleton ops op ih =>
    rw [after_append]
    cases op with
    | clear => rw [compiled_clear]; exact .empty _
    | compile m => rw [compiled_compile]; exact (ih.step_compile m).1

theorem misses_after (r : Registry κ) (ops : List Op) :
    (after r ops).misses = (List.range ops.length).countP (isMiss r ops) := by
  induction ops using List.reverseRecOn with
  | nil => rfl
  | append_singleton ops op ih =>
    rw [after_append, countP_isMiss, ← ih]
    cases op with
    | clear => rfl
    | compile m => simpa [Op.member?] using ((mirrors_after r ops).step_compile m).2.2

theorem hits_add_misses_after (r : Registry κ) (ops : List Op) :
    (after r ops).hits + (after r ops).misses = (ops.filterMap Op.member?).length := by
  induction ops using List.reverseRecOn with
  | nil => rfl
  | append_singleton ops op ih =>
    rw [after_append, List.filterMap_append, List.length_append, ← ih]
    cases op with
    | clear => rfl
    | compile m =>
      obtain ⟨_, hhits, hmisses⟩ := (mirrors_after r ops).step_compile m
      rw [hhits, hmisses]
      show _ = (after r ops).hits + (after r ops).misses + 1
      split <;> omega

/-- Compiling through a cache in front of a registry leaves the rest of the world alone. -/
theorem compile_effect (r : Registry κ) (c : Cache κ) (m : Member) (w : World σ) :
    (c.compile (fun m => return r.compile m) m : Effect σ _) w = ((c.answer r m, c.step r (.compile m)), w) := by
  show _ = (c.compile (m := Id) r.compile m, w)
  unfold compile
  cases c.entries.lookup m with
  | some f => rfl
  | none =>
    simp only [pure_bind]
    cases r.compile m <;> rfl

end Cache

/-! ### A host with a cache -/

/-- The one host has a cache in front of the registry and is otherwise in the state of the other one. -/
def Registry.Beside (r : Registry κ) (_ : Moment) (host : σ) (host' : σ × Cache κ) : Prop :=
  ∃ cache ms, host' = (host, cache) ∧ cache.Mirrors r ms

section

variable {r : Registry κ} {invoke : κ → List Value → Effect σ (Except Exception Value)}

/-- Evaluators with a cache in front of them answer as the cache does, and leave the cache after this step in the host. -/
theorem cached_compile (m : Member) (references : Supply .reference) (host : σ) (cache : Cache κ) :
    (r.evaluators invoke).cached.compile m ⟨references, (host, cache)⟩ =
      (cache.answer r m, ⟨references, (host, cache.step r (.compile m))⟩) := by
  simp only [Evaluators.cached, Registry.evaluators, Cache.compile_effect]

theorem onFirst_beside {α : Type} (k : Moment) (x : Effect σ α) : Effect.Alike r.Beside k x x.onFirst fun _ => Eq := by
  rintro k₁ _ ⟨references, host⟩ ⟨_, _⟩ ⟨rfl, cache, ms, rfl, hcache⟩
  exact ⟨k₁, le_rfl, ⟨rfl, cache, ms, rfl, hcache⟩, rfl⟩

/-- Evaluators with a cache in front of them serve as well as without. -/
theorem cached_servedAlike {o : Optimizer σ κ} (ho : o.evaluators = r.evaluators invoke) :
    o.ServedAlike (r.evaluators invoke).cached o.hooks.onFirst r.Beside fun _ => Eq where
  lasting _ h := h
  compile k m _ _ := by
    rintro k₁ _ ⟨references, host⟩ ⟨_, _⟩ ⟨rfl, cache, ms, rfl, hcache⟩
    rw [ho]
    refine ⟨k₁, le_rfl, ?_, ?_⟩
    · rw [cached_compile]
      exact ⟨rfl, _, _, rfl, (hcache.step_compile m).1⟩
    · rw [cached_compile, hcache.answer_eq]
      show Compiled Eq (r.compile m) (r.compile m)
      cases r.compile m with
      | ok f => exact .ok rfl
      | error fault => exact .error
  invoke values _ hR := by
    rw [hR, ho]
    exact onFirst_beside _ _
  admits k e := onFirst_beside k _
  before k e := onFirst_beside k _
  after k e := onFirst_beside k _
  allowance := rfl

end

/-! ### Sessions with and without a cache -/

namespace Session

/-- What is done in a session. -/
inductive Action where
  /-- A whole tree is optimized. -/
  | optimize (e : Expr)
  /-- A tree that stands in a context is optimized. -/
  | visit (e : Expr) (cx : Context)
  /-- The settings are changed. -/
  | configure (settings : Settings)
  /-- The host clears its cache, if it has one. -/
  | clear

/-- What is seen of a session after an action. -/
structure Report where
  /-- What came of the run, if there was one. -/
  result : Option (Except Halt Expr)
  /-- The counts of the latest run. -/
  tally : Tally
  /-- The counts of all runs. -/
  merged : Tally

/-- What comes of an action, and the session after it, for a host that clears its cache by `clear`. -/
def act (clear : σ → σ) (s : Session σ κ) : Action → Option (Except Halt Expr) × Session σ κ
  | .optimize e => (some (s.optimize e).1, (s.optimize e).2)
  | .visit e cx => (some (s.visit e cx).1, (s.visit e cx).2)
  | .configure settings => (none, s.configure settings)
  | .clear => (none, s.onHost clear)

/-- What is seen of a session after each action. -/
def reports (clear : σ → σ) (s : Session σ κ) : List Action → List Report
  | [] => []
  | action :: actions =>
    let (result, s) := s.act clear action
    ⟨result, s.progress.tally, s.merged⟩ :: s.reports clear actions

/-- The sessions are alike, except that the host of the second one has a cache in front of the registry. -/
structure Beside (r : Registry κ) (invoke : κ → List Value → Effect σ (Except Exception Value)) (s : Session σ κ)
    (s' : Session (σ × Cache κ) κ) : Prop where
  evaluators : s.optimizer.evaluators = r.evaluators invoke
  optimizer : s'.optimizer = s.optimizer.hostedBy (r.evaluators invoke).cached s.optimizer.hooks.onFirst
  progress : s.progress.Linked r.Beside .now s'.progress
  merged : s'.merged = s.merged

namespace Beside

variable {r : Registry κ} {invoke : κ → List Value → Effect σ (Except Exception Value)} {s : Session σ κ}
  {s' : Session (σ × Cache κ) κ}

theorem attempt (h : Beside r invoke s s') {x : Run σ Expr} {x' : Run (σ × Cache κ) Expr}
    (hrun : Run.Same r.Beside .now x x') :
    (s'.attempt x').1 = (s.attempt x).1 ∧ Beside r invoke (s.attempt x).2 (s'.attempt x').2 := by
  have hend := hrun .now le_rfl s.progress s'.progress h.progress
  unfold Session.attempt
  generalize x s.progress = outcome, x' s'.progress = outcome' at hend ⊢
  cases hend with
  | @result k _ _ t t' _ ht hr =>
    subst hr
    exact ⟨rfl, h.evaluators, h.optimizer, ht, by simp only [h.merged, ht.tally]⟩
  | @halted k _ t t' _ ht => exact ⟨rfl, h.evaluators, h.optimizer, ht, by simp only [h.merged, ht.tally]⟩

/-- **One action**: the same comes of it, and the sessions stay alike. -/
theorem act (h : Beside r invoke s s') (action : Action) :
    (s'.act (Prod.map id Cache.clear) action).1 = (s.act id action).1 ∧
      Beside r invoke (s.act id action).2 (s'.act (Prod.map id Cache.clear) action).2 := by
  have hserved := cached_servedAlike h.evaluators
  cases action with
  | optimize e =>
    obtain ⟨hresult, hafter⟩ := h.attempt (Optimizer.optimize_alike hserved .now e)
    simp only [Session.act, Session.optimize, h.optimizer]
    exact ⟨congrArg some hresult, hafter⟩
  | visit e cx =>
    obtain ⟨hresult, hafter⟩ := h.attempt (Optimizer.visit_alike hserved .now e cx)
    simp only [Session.act, Session.visit, h.optimizer]
    exact ⟨congrArg some hresult, hafter⟩
  | configure settings =>
    refine ⟨rfl, h.evaluators, ?_, h.progress, h.merged⟩
    simp only [Session.act, Session.configure, h.optimizer]
    rfl
  | clear =>
    obtain ⟨hnodes, htally, hreferences, cache, _, hhost, _⟩ := h.progress
    refine ⟨rfl, h.evaluators, h.optimizer, ⟨hnodes, htally, hreferences, cache.clear, ∅, ?_, .empty cache⟩, h.merged⟩
    simp only [Session.act, Session.onHost, hhost]
    rfl

end Beside

/-- **Sessions**: with a cache and without, the same is seen. The induction is on the actions that are left. -/
theorem reports_eq {r : Registry κ} {invoke : κ → List Value → Effect σ (Except Exception Value)} {s : Session σ κ}
    {s' : Session (σ × Cache κ) κ} (h : Beside r invoke s s') (actions : List Action) :
    s'.reports (Prod.map id Cache.clear) actions = s.reports id actions := by
  induction actions generalizing s s' with
  | nil => rfl
  | cons action actions ih =>
    obtain ⟨hresult, hafter⟩ := h.act action
    simp only [reports]
    rw [hresult, ih hafter, ← hafter.progress.tally, hafter.merged]

end Session

/-- **A cache is not noticed.** After any operations on a cache in front of a registry, it answers for every member as the
registry does; it has counted every compilation, those of members not compiled with success since the last clearing as
misses, and so every compilation that failed; and it remembers as many callables as members were compiled with success since
the last clearing. Evaluators with a cache in front of them do such an operation on the cache of their host whenever they
compile a member. And in any session, whatever the facts, the settings, the host and its hooks, every action leads to the
same results, faults and counts with a cache as without. -/
theorem cache_transparent (registry : Registry κ) :
    (∀ ops : List Cache.Op,
      let cache := Cache.after registry ops
      (∀ m, cache.answer registry m = registry.compile m) ∧
        cache.hits + cache.misses = (ops.filterMap Cache.Op.member?).length ∧
        cache.misses = (List.range ops.length).countP (Cache.isMiss registry ops) ∧
        (∀ place m fault, ops[place]? = some (.compile m) → registry.compile m = .error fault →
          Cache.isMiss registry ops place = true) ∧
        cache.size = (Cache.compiled registry ops).card) ∧
    (∀ (invoke : κ → List Value → Effect σ (Except Exception Value)) (m : Member) (references : Supply .reference) (host : σ)
      (cache : Cache κ), (registry.evaluators invoke).cached.compile m ⟨references, (host, cache)⟩ =
        (cache.answer registry m, ⟨references, (host, cache.step registry (.compile m))⟩)) ∧
    ∀ (invoke : κ → List Value → Effect σ (Except Exception Value)) (facts : Facts) (hooks : Hooks σ)
      (settings : Settings) (supplies : Supplies) (host : σ) (actions : List Session.Action),
      let bare : Optimizer σ κ := ⟨facts, registry.evaluators invoke, hooks, settings⟩
      let cached : Optimizer (σ × Cache κ) κ := ⟨facts, (registry.evaluators invoke).cached, hooks.onFirst, settings⟩
      (Session.start cached supplies (host, .empty)).reports (Prod.map id Cache.clear) actions =
        (Session.start bare supplies host).reports id actions := by
  refine ⟨?_, ?_, ?_⟩
  · intro ops cache
    have hmirrors : cache.Mirrors registry (Cache.compiled registry ops) := Cache.mirrors_after registry ops
    refine ⟨hmirrors.answer_eq, Cache.hits_add_misses_after registry ops, Cache.misses_after registry ops, ?_,
      hmirrors.size⟩
    intro place m fault hop hfault
    have hfailed : m ∉ Cache.compiled registry (ops.take place) := by
      intro hm
      have hok := Cache.isOk_of_compiled hm
      rw [hfault] at hok
      cases hok
    simpa [Cache.isMiss, hop, Cache.Op.member?] using hfailed
  · intro invoke m references host cache
    exact cached_compile m references host cache
  · intro invoke facts hooks settings supplies host actions bare cached
    have hbeside : Session.Beside registry invoke (Session.start bare supplies host)
        (Session.start cached supplies (host, .empty)) :=
      ⟨rfl, rfl, ⟨rfl, rfl, rfl, .empty, ∅, rfl, .empty .empty⟩, rfl⟩
    exact Session.reports_eq hbeside actions

end TypedTree
