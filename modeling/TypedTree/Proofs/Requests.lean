import Mathlib.Data.List.Infix
import TypedTree.Proofs.Idempotence
import TypedTree.Proofs.Simulation

/-!
# What a host is asked for

A host compiles members and calls what it compiled. To say what it is asked for in a run, its evaluators are made to write it
down (`Evaluators.noting`), which changes nothing else. Everything that is written down is permitted: only pure members are
compiled, only what was compiled before is called (`Permitted`), and nothing at all is asked for when folding is not allowed.
So a run cannot tell evaluators apart that agree on pure members (`nothing_impure_runs`).
-/

namespace TypedTree

variable {σ κ μ : Type}

/-! ### Requests -/

/-- What a host with callables `κ` is asked for. -/
inductive Request (κ : Type) where
  /-- To compile a member; this was the answer. -/
  | compiled (member : Member) (answer : Except Fault κ)
  /-- To call a callable. -/
  | called (callable : κ) (operands : List Value)

/-- Of requests, the latest first: the members are `allowed` to be compiled, and what is called was compiled before. -/
inductive Permitted (allowed : Member → Bool) : List (Request κ) → Prop where
  | none : Permitted allowed []
  | compiled {m : Member} {answer : Except Fault κ} {requests : List (Request κ)} : allowed m = true →
      Permitted allowed requests → Permitted allowed (.compiled m answer :: requests)
  | called {m : Member} {f : κ} {operands : List Value} {requests : List (Request κ)} : .compiled m (.ok f) ∈ requests →
      Permitted allowed requests → Permitted allowed (.called f operands :: requests)

/-- Writes down a request. -/
def Request.note (r : Request κ) : Effect (σ × List (Request κ)) Unit :=
  modify fun w => { w with host := (w.host.1, r :: w.host.2) }

/-- The evaluators, when all requests are written down. -/
def Evaluators.noting (ev : Evaluators σ κ) : Evaluators (σ × List (Request κ)) κ where
  compile m := do
    let answer ← (ev.compile m).onFirst
    Request.note (.compiled m answer)
    return answer
  invoke f operands := do
    Request.note (.called f operands)
    (ev.invoke f operands).onFirst

/-- The state of a run, with the requests that were written down. -/
def Progress.noting (s : Progress σ) (requests : List (Request κ)) : Progress (σ × List (Request κ)) :=
  { s with world := ⟨s.world.references, (s.world.host, requests)⟩ }

/-- How a run ended, with the requests that were written down. -/
def Run.ending {α : Type} (requests : List (Request κ)) :
    EStateM.Result Halt (Progress σ) α → EStateM.Result Halt (Progress (σ × List (Request κ))) α
  | .ok a s => .ok a (s.noting requests)
  | .error halt s => .error halt (s.noting requests)

/-! ### A host that writes down what it is asked for -/

/-- Requests that are permitted; later on there may be more of them. -/
structure Asked (κ : Type) (allowed : Member → Bool) where
  /-- The requests, the latest first. -/
  requests : List (Request κ)
  permitted : Permitted allowed requests

instance {allowed : Member → Bool} : Preorder (Asked κ allowed) where
  le a b := a.requests <:+ b.requests
  le_refl _ := List.suffix_rfl
  le_trans _ _ _ := List.IsSuffix.trans

namespace Optimizer

variable (o : Optimizer σ κ)

/-- The requests are permitted by the optimizer: only pure members are compiled, and none when folding is not allowed. -/
def Permits (requests : List (Request κ)) : Prop :=
  Permitted o.facts.isPureMember requests ∧ (o.settings.folding = false → requests = [])

/-- The one host is in the state of the other one and has written down the requests. -/
def Wrote (asked : Asked κ o.facts.isPureMember) (host : σ) (host' : σ × List (Request κ)) : Prop :=
  host' = (host, asked.requests) ∧ (o.settings.folding = false → asked.requests = [])

/-- The callable was compiled before. -/
def Known (asked : Asked κ o.facts.isPureMember) (f f' : κ) : Prop :=
  f = f' ∧ ∃ m, .compiled m (.ok f) ∈ asked.requests

variable {o}

theorem onFirst_alike {α : Type} (k : Asked κ o.facts.isPureMember) (x : Effect σ α) :
    Effect.Alike o.Wrote k x x.onFirst fun _ => Eq := by
  rintro k₁ _ ⟨references, host⟩ ⟨_, _⟩ ⟨rfl, rfl, hidle⟩
  exact ⟨k₁, le_rfl, ⟨rfl, rfl, hidle⟩, rfl⟩

/-- Evaluators that write down their requests serve as well as without. -/
theorem noting_servedAlike : o.ServedAlike o.evaluators.noting o.hooks.onFirst o.Wrote o.Known where
  lasting hk h := ⟨h.1, h.2.imp fun _ hm => List.IsSuffix.subset hk hm⟩
  compile k m hfold hm := by
    rintro k₁ _ ⟨references, host⟩ ⟨_, _⟩ ⟨rfl, rfl, _⟩
    let answer := (o.evaluators.compile m ⟨references, host⟩).1
    refine ⟨⟨.compiled m answer :: k₁.requests, .compiled hm k₁.permitted⟩, List.suffix_cons _ _, ⟨rfl, rfl, ?_⟩, ?_⟩
    · simp [hfold]
    · show Compiled _ answer answer
      cases hanswer : answer with
      | ok f => exact .ok ⟨rfl, m, List.mem_cons_self⟩
      | error fault => exact .error
  invoke values hfold hR := by
    rintro k₁ hk ⟨references, host⟩ ⟨_, _⟩ ⟨rfl, rfl, _⟩
    obtain ⟨rfl, m, hm⟩ := hR
    refine ⟨⟨.called _ values :: k₁.requests, .called (List.IsSuffix.subset hk hm) k₁.permitted⟩, List.suffix_cons _ _,
      ⟨rfl, rfl, ?_⟩, rfl⟩
    simp [hfold]
  admits k e := onFirst_alike k _
  before k e := onFirst_alike k _
  after k e := onFirst_alike k _
  allowance := rfl

theorem eq_noting {k : Asked κ o.facts.isPureMember} {s : Progress σ} {s' : Progress (σ × List (Request κ))}
    (h : s.Linked o.Wrote k s') : s' = s.noting k.requests ∧ o.Permits k.requests := by
  obtain ⟨nodes, ⟨references, host⟩, tally⟩ := s
  obtain ⟨_, ⟨_, _⟩, _⟩ := s'
  obtain ⟨rfl, rfl, rfl, rfl, hidle⟩ := h
  exact ⟨rfl, k.permitted, hidle⟩

/-- A run that writes down the requests ends as the run without, and the requests are permitted. -/
theorem exists_requests {x : Run σ Expr} {x' : Run (σ × List (Request κ)) Expr} (h : ∀ k, Run.Same o.Wrote k x x')
    (s : Progress σ) : ∃ requests, x' (s.noting []) = Run.ending requests (x s) ∧ o.Permits requests := by
  have hend := h ⟨[], .none⟩ _ le_rfl s (s.noting []) ⟨rfl, rfl, rfl, rfl, fun _ => rfl⟩
  generalize x s = r, x' (s.noting []) = r' at hend ⊢
  cases hend with
  | result _ hs hr =>
    subst hr
    obtain ⟨rfl, hpermits⟩ := eq_noting hs
    exact ⟨_, rfl, hpermits⟩
  | halted _ hs =>
    obtain ⟨rfl, hpermits⟩ := eq_noting hs
    exact ⟨_, rfl, hpermits⟩

end Optimizer

/-! ### Evaluators that agree on pure members -/

/-- The evaluators treat the member alike, whatever the world: both compile it, to callables that do the same, or neither does,
and the world is the same afterwards. -/
def Evaluators.AgreeOn (ev : Evaluators σ κ) (ev' : Evaluators σ μ) (m : Member) : Prop :=
  ∀ w, (ev.compile m w).2 = (ev'.compile m w).2 ∧
    Compiled (fun f f' => ∀ operands, ev.invoke f operands = ev'.invoke f' operands) (ev.compile m w).1 (ev'.compile m w).1

namespace Optimizer

variable {o : Optimizer σ κ} {evaluators : Evaluators σ μ}

theorem effect_alike {α : Type} (k : Moment) (x : Effect σ α) :
    Effect.Alike (fun (_ : Moment) => Eq) k x x fun _ => Eq := by
  rintro k₁ _ ⟨references, host⟩ ⟨_, _⟩ ⟨rfl, rfl⟩
  exact ⟨k₁, le_rfl, ⟨rfl, rfl⟩, rfl⟩

/-- Evaluators that agree on pure members serve alike. -/
theorem servedAlike_of_agree (h : ∀ m, o.facts.isPureMember m = true → o.evaluators.AgreeOn evaluators m) :
    o.ServedAlike evaluators o.hooks (fun (_ : Moment) => Eq)
      fun _ f f' => ∀ operands, o.evaluators.invoke f operands = evaluators.invoke f' operands where
  lasting _ hR := hR
  compile k m _ hm := by
    rintro k₁ _ ⟨references, host⟩ ⟨_, _⟩ ⟨rfl, rfl⟩
    obtain ⟨hworld, hcompiled⟩ := h m hm ⟨references, host⟩
    exact ⟨k₁, le_rfl, ⟨by rw [hworld], by rw [hworld]⟩, hcompiled⟩
  invoke operands _ hR := by
    rw [hR operands]
    exact effect_alike _ _
  admits k e := effect_alike k _
  before k e := effect_alike k _
  after k e := effect_alike k _
  allowance := rfl

/-- Runs that proceed alike in equal states are equal. -/
theorem run_eq_of_same {x x' : Run σ Expr} (h : ∀ k, Run.Same (fun (_ : Moment) => Eq) k x x') (s : Progress σ) :
    x' s = x s := by
  have heq : ∀ {k : Moment} {t t' : Progress σ}, Progress.Linked (fun _ => Eq) k t t' → t' = t := by
    rintro _ ⟨nodes, ⟨references, host⟩, tally⟩ ⟨_, ⟨_, _⟩, _⟩ ⟨rfl, rfl, rfl, rfl⟩
    rfl
  have hend := h .now .now le_rfl s s ⟨rfl, rfl, rfl, rfl⟩
  generalize x s = r, x' s = r' at hend ⊢
  cases hend with
  | result _ hs hr => rw [hr, heq hs]
  | halted _ hs => rw [heq hs]

end Optimizer

/-! ### Nothing impure is run -/

/-- **Nothing impure is run**: whatever the tree, the context, the settings, the catalog, the evaluators and the hooks, a visit
and a whole run ask the host to compile pure members only and to call only what was compiled before, and ask for nothing when
folding is not allowed; this is so for a run that writes down what it asks for, which otherwise ends as without. So evaluators
that agree on the pure members lead to the same end: the same result, the same counts and the same world. -/
theorem nothing_impure_runs (catalog : Catalog) (evaluators : Evaluators σ κ) (hooks : Hooks σ) (settings : Settings)
    (e : Expr) (cx : Context) (s : Progress σ) :
    let o : Optimizer σ κ := ⟨catalog.facts, evaluators, hooks, settings⟩
    let noting : Optimizer (σ × List (Request κ)) κ := ⟨catalog.facts, evaluators.noting, hooks.onFirst, settings⟩
    (∃ requests, noting.visit e cx (s.noting []) = Run.ending requests (o.visit e cx s) ∧ o.Permits requests) ∧
      (∃ requests, noting.optimize e (s.noting []) = Run.ending requests (o.optimize e s) ∧ o.Permits requests) ∧
      ∀ {μ : Type} (evaluators' : Evaluators σ μ),
        (∀ m, catalog.isPureMember m = true → evaluators.AgreeOn evaluators' m) →
        let o' : Optimizer σ μ := ⟨catalog.facts, evaluators', hooks, settings⟩
        o'.visit e cx s = o.visit e cx s ∧ o'.optimize e s = o.optimize e s := by
  intro o noting
  have hnoting := Optimizer.noting_servedAlike (o := o)
  refine ⟨?_, ?_, ?_⟩
  · exact Optimizer.exists_requests (fun k => Optimizer.visit_alike hnoting k e cx) s
  · exact Optimizer.exists_requests (fun k => Optimizer.optimize_alike hnoting k e) s
  · intro μ evaluators' hagree o'
    have hserved := Optimizer.servedAlike_of_agree (o := o) hagree
    constructor
    · exact Optimizer.run_eq_of_same (fun k => Optimizer.visit_alike hserved k e cx) s
    · exact Optimizer.run_eq_of_same (fun k => Optimizer.optimize_alike hserved k e) s

/-- A callable that is registered for one member is not found for another one. -/
theorem Registry.find?_register (r : Registry κ) {m other : Member} (callable : κ) (hm : m ≠ other)
    (hdefinition : m.definition ≠ some other) : (r.register other callable).find? m = r.find? m := by
  have hfilter : ∀ {d : Member}, d ≠ other → ∀ entries : List (Member × κ),
      (entries.filter (·.1 != other)).lookup d = entries.lookup d := by
    intro d hd entries
    induction entries with
    | nil => rfl
    | cons p entries ih =>
      by_cases hp : p.1 = other
      · have hne : (d == p.1) = false := by simpa [hp] using hd
        rw [List.filter_cons_of_neg (by simpa using hp), ih, List.lookup_cons, hne]
      · rw [List.filter_cons_of_pos (by simpa using hp), List.lookup_cons, List.lookup_cons, ih]
  have hlookup : ∀ {d : Member}, d ≠ other → (r.register other callable).entries.lookup d = r.entries.lookup d := by
    intro d hd
    have hne : (d == other) = false := by simpa using hd
    rw [register, List.lookup_cons, hne]
    exact hfilter hd r.entries
  unfold find?
  rw [hlookup hm]
  cases h : m.definition with
  | none => rfl
  | some d =>
    have hd : d ≠ other := fun heq => hdefinition (by rw [h, heq])
    simp only [Option.bind_some, hlookup hd]

/-- Native functions that are registered for other members make no difference. -/
theorem Registry.natives_agreeOn (r : Registry Registration) {m other : Member} (registration : Registration)
    (hm : m ≠ other) (hdefinition : m.definition ≠ some other) :
    r.natives.AgreeOn (r.register other registration).natives m := by
  intro w
  have hcompile : (r.register other registration).compile m = r.compile m := by
    rw [compile, r.find?_register registration hm hdefinition, compile]
  refine ⟨rfl, ?_⟩
  show Compiled _ (r.compile m) ((r.register other registration).compile m)
  rw [hcompile]
  cases r.compile m with
  | ok f => exact .ok fun _ => rfl
  | error fault => exact .error

/-- A method of the library that writes a text. -/
def printing : Member := ⟨"print", .string, .method, true, [⟨"text", .string⟩], .void, none⟩

/-- Two texts, joined. -/
def joinedTexts : Fresh .node Expr := do Expr.call none joining [← Expr.string "a", ← Expr.string "b"]

theorem nothing_impure_runs_joinedTexts :
    let e := (joinedTexts ⟨0⟩).1
    let s : Progress Console := ⟨(joinedTexts ⟨0⟩).2, ⟨⟨0⟩, .empty⟩, .empty⟩
    let printer : Registry Registration := joiner.register printing ⟨1, printing, .const .null⟩
    let o : Optimizer Console Registration := ⟨joiningCatalog.facts, joiner.natives, .none, .standard⟩
    let o' : Optimizer Console Registration := ⟨joiningCatalog.facts, printer.natives, .none, .standard⟩
    let noting : Optimizer (Console × List (Request Registration)) Registration :=
      ⟨joiningCatalog.facts, joiner.natives.noting, Hooks.none.onFirst, .standard⟩
    (∀ m, joiningCatalog.isPureMember m = true → joiner.natives.AgreeOn printer.natives m) ∧
      (match noting.optimize e (s.noting []) with
        | .ok _ s' => s'.world.host.2.length == 2
        | .error _ _ => false) = true ∧
      (∃ requests, noting.optimize e (s.noting []) = Run.ending requests (o.optimize e s) ∧ o.Permits requests) ∧
      o'.optimize e s = o.optimize e s := by
  intro e s printer o o' noting
  have hagree : ∀ m, joiningCatalog.isPureMember m = true → joiner.natives.AgreeOn printer.natives m := by
    intro m hm
    have hmember : m = joining ∨ m.definition = some joining := by
      simp only [joiningCatalog, Catalog.isPureMember, Table.covers, Generic.definition?, Bool.or_eq_true,
        Option.any_eq_true] at hm
      simpa using hm
    refine joiner.natives_agreeOn _ ?_ ?_
    · rintro rfl
      rcases hmember with h | h
      · exact absurd h (by decide)
      · cases h
    · rcases hmember with rfl | h
      · exact nofun
      · rw [h]
        decide
  obtain ⟨_, hrequests, hsame⟩ := nothing_impure_runs joiningCatalog joiner.natives .none .standard e .plain s
  exact ⟨hagree, by decide +kernel, hrequests, (hsame printer.natives hagree).2⟩

end TypedTree
