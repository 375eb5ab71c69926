import TypedTree.Proofs.Rules.Branches
import TypedTree.Proofs.ValueEquality

/-!
# Switches over known values

A switch whose value and tests are known is a lookup: the body of the first test that equals the value takes its place, or the
fallback, or the default of its type (`Optimizer.selectCase_none`). Only the tests in order and the bodies they select matter,
so cases may be split and merged. The equality of a switch is symmetric and transitive, so at most one of several tests that
differ pairwise equals the value, and the order of the cases does not matter either.

A compiled comparison is run for one test after the other, until an answer settles the switch (`Optimizer.Compared`). The
effects are those of the calls for these tests, and no others.

What is selected is one thing (`Selection`), and what a run makes of it is another (`Selection.result`): the node it gives, the
identities it uses up and what it counts.
-/

namespace TypedTree

/-! ### The tests of a switch -/

/-- The tests with their known values, in order, each with the body it selects. -/
def Facts.knownTests (facts : Facts) (tests : List (Expr × Expr)) : List (Value × Expr) :=
  tests.filterMap fun p => (facts.constantValue? p.1).map (·, p.2)

/-- The body that the first test equal to the value selects. -/
def firstMatch (value : Value) (tests : List (Value × Expr)) : Option Expr :=
  (tests.find? fun t => value.defaultEquals t.1).map (·.2)

theorem knownTests_cons {facts : Facts} {test body : Expr} {candidate : Value} (h : facts.constantValue? test = some candidate)
    (rest : List (Expr × Expr)) : facts.knownTests ((test, body) :: rest) = (candidate, body) :: facts.knownTests rest := by
  simp [Facts.knownTests, h]

theorem firstMatch_cons_of_eq {value candidate : Value} (h : value.defaultEquals candidate = true) (body : Expr)
    (rest : List (Value × Expr)) : firstMatch value ((candidate, body) :: rest) = some body := by
  simp [firstMatch, h]

theorem firstMatch_cons_of_ne {value candidate : Value} (h : value.defaultEquals candidate = false) (body : Expr)
    (rest : List (Value × Expr)) : firstMatch value ((candidate, body) :: rest) = firstMatch value rest := by
  simp [firstMatch, h]

/-- Cases with the same body may be one case. -/
theorem caseTests_merge {α : Type} (pre post : List (Case α)) (tests tests' : List α) (body : α) :
    caseTests (pre ++ ⟨tests ++ tests', body⟩ :: post) =
      caseTests (pre ++ ⟨tests, body⟩ :: ⟨tests', body⟩ :: post) := by
  simp [caseTests]

/-- Of tests that differ pairwise, at most one equals the value, so their order does not matter. -/
theorem firstMatch_perm {tests tests' : List (Value × Expr)} (value : Value) (hperm : tests.Perm tests')
    (hdistinct : tests.Pairwise fun t t' => t.1.defaultEquals t'.1 = false) :
    firstMatch value tests = firstMatch value tests' := by
  let equal : Value × Expr → Bool := fun t => value.defaultEquals t.1
  have hunique : (tests.filter equal).Pairwise fun _ _ => False := by
    refine (hdistinct.filter equal).imp_of_mem fun {t t'} ht ht' hne => ?_
    have htt' := Value.defaultEquals_trans (Value.defaultEquals_symm (List.mem_filter.1 ht).2) (List.mem_filter.1 ht').2
    rw [htt'] at hne
    cases hne
  have hfilter : tests.filter equal = tests'.filter equal := by
    have hperm' := hperm.filter equal
    cases hmatches : tests.filter equal with
    | nil => rw [hmatches] at hperm'; exact hperm'.nil_eq
    | cons t rest =>
      rw [hmatches] at hperm' hunique
      cases rest with
      | nil => exact List.singleton_perm.1 hperm'
      | cons t' rest => exact ((List.pairwise_cons.1 hunique).1 t' List.mem_cons_self).elim
  rw [firstMatch, firstMatch, ← List.head?_filter, ← List.head?_filter]
  exact congrArg (fun matching => matching.head?.map (·.2)) hfilter

/-! ### Selections -/

/-- What becomes of a switch. -/
inductive Selection where
  /-- A body takes its place. -/
  | body (e : Expr)
  /-- The default of its type takes its place. -/
  | default
  /-- The switch stays. -/
  | kept
  /-- The throw of an exception takes its place. -/
  | thrown (e : Exception)

namespace Selection

variable {σ : Type}

/-- The body that was found, or the default. -/
def ofBody? : Option Expr → Selection
  | some e => .body e
  | none => .default

/-- What a run from the state `s` on gives for the switch `n`. A body is retyped and counted as a branch, unless retyping it
is a fault; a default is a new node and counted as a branch as well. A throw is a new node over a new constant, counted as a
throw. -/
def result (n : Expr) (s : Progress σ) : Selection → EStateM.Result Halt (Progress σ) Expr
  | .body e =>
    match e.retype n.ty s.nodes with
    | .ok (r, nodes) => .ok r { s with nodes := nodes, tally := { s.tally with branches := s.tally.branches + 1 } }
    | .error fault => .error (.fault fault) s
  | .default =>
    .ok ⟨.made s.nodes.next, n.ty, .defaultOf⟩
      { s with nodes := ⟨s.nodes.next + 1⟩, tally := { s.tally with branches := s.tally.branches + 1 } }
  | .kept => .ok n s
  | .thrown e =>
    .ok ⟨.made (s.nodes.next + 1), n.ty, .throw (some ⟨.made s.nodes.next, e.ty, .constant (.exception e)⟩)⟩
      { s with nodes := ⟨s.nodes.next + 2⟩, tally := { s.tally with threw := s.tally.threw + 1 } }

/-- A lookup uses nothing of the switch but its type. -/
theorem result_congr {n n' : Expr} (hty : n.ty = n'.ty) (found : Option Expr) (s : Progress σ) :
    (ofBody? found).result n s = (ofBody? found).result n' s := by
  cases found <;> simp only [ofBody?, result, hty]

end Selection

/-- An indirect invocation puts a wrapper around what its target raised; the exception `raised` is what `e` is put around, or
`e` itself when it is no such wrapper. -/
inductive Exception.Carries (e : Exception) : Exception → Prop where
  | wrapper {raised : Exception} : e.ty = .targetInvocation → e.inner = some raised → Carries e raised
  | plain : (e.ty = .targetInvocation → e.inner = none) → Carries e e

theorem Exception.carries_unwrap (e : Exception) : e.Carries e.unwrap := by
  cases hinner : e.inner with
  | none =>
    have hself : e.unwrap = e := by simp [unwrap, isWrapper, hinner]
    rw [hself]
    exact .plain fun _ => hinner
  | some raised =>
    by_cases hty : e.ty = .targetInvocation
    · have hraised : e.unwrap = raised := by simp [unwrap, isWrapper, hinner, hty]
      rw [hraised]
      exact .wrapper hty hinner
    · have hself : e.unwrap = e := by simp [unwrap, isWrapper, hty]
      rw [hself]
      exact .plain fun h => absurd h hty

namespace Optimizer

variable {σ κ : Type} {o : Optimizer σ κ} {n : Expr} {value : Value} {fallback : Option Expr}

/-! ### Lookup -/

theorem takeBranch_result (n body : Expr) (s : Progress σ) : takeBranch n body s = (Selection.body body).result n s := by
  simp only [takeBranch, Selection.result, bind, EStateM.bind, liftM, monadLift, MonadLift.monadLift]
  cases body.retype n.ty s.nodes <;> rfl

variable (hfacts : ∀ e, (o.facts.constantValue? e).isSome = true → o.facts.alwaysThrows e = false)

include hfacts

/-- **Lookup**: without a comparison, a switch with known tests selects the body of the first one that equals the value. -/
theorem selectCase_none {tests : List (Expr × Expr)} (hknown : ∀ p ∈ tests, (o.facts.constantValue? p.1).isSome = true)
    (s : Progress σ) : o.selectCase n none value fallback tests s =
      (Selection.ofBody? (firstMatch value (o.facts.knownTests tests) <|> fallback)).result n s := by
  induction tests with
  | nil =>
    cases fallback with
    | some body => exact takeBranch_result n body s
    | none => rfl
  | cons p rest ih =>
    obtain ⟨test, body⟩ := p
    rw [List.forall_mem_cons] at hknown
    obtain ⟨candidate, hc⟩ := Option.isSome_iff_exists.1 hknown.1
    rw [selectCase_cons (hfacts test hknown.1) hc, knownTests_cons hc]
    cases heq : value.defaultEquals candidate with
    | true =>
      rw [firstMatch_cons_of_eq heq, compareWith, heq]
      exact takeBranch_result n body s
    | false =>
      rw [firstMatch_cons_of_ne heq, ← ih hknown.2, compareWith, heq]
      rfl

omit hfacts

/-! ### Comparisons -/

/-- The tests that a switch compares with its value, those that it leaves out, the answers to the comparisons, and what is
selected: all tests are compared up to the first one whose answer is not that they differ. -/
inductive Compared (fallback : Option Expr) :
    List (Value × Expr) → List (Value × Expr) → List (Except Exception Value) → Selection → Prop where
  /-- No test is left. -/
  | exhausted : Compared fallback [] [] [] (.ofBody? fallback)
  /-- The test differs, and the next one is compared. -/
  | differs {t : Value × Expr} {asked rest : List (Value × Expr)} {answers : List (Except Exception Value)}
      {selection : Selection} : Compared fallback asked rest answers selection →
      Compared fallback (t :: asked) rest (.ok (.bool false) :: answers) selection
  /-- The test is equal. -/
  | matches {test : Value} {body : Expr} {rest : List (Value × Expr)} :
      Compared fallback [(test, body)] rest [.ok (.bool true)] (.body body)
  /-- The answer is no truth value. -/
  | undecided {t : Value × Expr} {rest : List (Value × Expr)} {answer : Value} : (∀ b, answer ≠ .bool b) →
      Compared fallback [t] rest [.ok answer] .kept
  /-- The comparison raises an exception. -/
  | raises {t : Value × Expr} {rest : List (Value × Expr)} {e raised : Exception} : e.Carries raised →
      Compared fallback [t] rest [.error e] (.thrown raised)

/-- The calls that compare a value with tests, in order. -/
def askAll (evaluators : Evaluators σ κ) (callable : κ) (value : Value) (tests : List (Value × Expr)) :
    Effect σ (List (Except Exception Value)) :=
  tests.mapM fun t => evaluators.invoke callable [value, t.1]

theorem askAll_cons {evaluators : Evaluators σ κ} {callable : κ} {t : Value × Expr} {answer : Except Exception Value}
    {w w' : World σ} (h : evaluators.invoke callable [value, t.1] w = (answer, w')) (tests : List (Value × Expr)) :
    askAll evaluators callable value (t :: tests) w =
      (answer :: (askAll evaluators callable value tests w').1, (askAll evaluators callable value tests w').2) := by
  simp only [askAll, List.mapM_cons, bind, StateT.bind, h]
  rfl

theorem askAll_singleton {evaluators : Evaluators σ κ} {callable : κ} {t : Value × Expr} {answer : Except Exception Value}
    {w w' : World σ} (h : evaluators.invoke callable [value, t.1] w = (answer, w')) :
    askAll evaluators callable value [t] w = ([answer], w') := by
  rw [askAll_cons h]
  rfl

theorem eq_bool_of_bool? {answer : Value} {b : Bool} (h : answer.bool? = some b) : answer = .bool b := by
  cases answer <;> cases h
  rfl

/-- A comparison acts on the host as the call does. -/
theorem compareWith_bind {callable : κ} {candidate : Value} {answer : Except Exception Value} {s : Progress σ} {w : World σ}
    (h : o.evaluators.invoke callable [value, candidate] s.world = (answer, w)) (k : Match → Run σ Expr) :
    (o.compareWith (some callable) value candidate >>= k) s = k (Match.ofOutcome answer) { s with world := w } := by
  rw [compareWith_some]
  show k (Match.ofOutcome (o.evaluators.invoke callable [value, candidate] s.world).1)
    { s with world := (o.evaluators.invoke callable [value, candidate] s.world).2 } = _
  rw [h]

/-- A member that can be compiled leaves its callable. -/
theorem compile?_bind {method : Member} {callable : κ} {s : Progress σ} {w : World σ}
    (h : o.evaluators.compile method s.world = (.ok callable, w)) (k : Option κ → Run σ Expr) :
    (o.compile? method >>= k) s = k (some callable) { s with world := w } := by
  have hcompile : o.compile? method s = .ok (some callable) { s with world := w } := by
    simp only [compile?, bind, EStateM.bind, liftM, monadLift, MonadLift.monadLift, h]
    rfl
  simp only [bind, EStateM.bind, hcompile]

/-- From the state on, the value is compared with some of the tests, in order and each once, and the result is what the
answers say. -/
def Compares (evaluators : Evaluators σ κ) (callable : κ) (value : Value) (n : Expr) (fallback : Option Expr)
    (tests : List (Value × Expr)) (s : Progress σ) (result : EStateM.Result Halt (Progress σ) Expr) : Prop :=
  ∃ asked rest selection, tests = asked ++ rest ∧
    Compared fallback asked rest (askAll evaluators callable value asked s.world).1 selection ∧
    result = selection.result n { s with world := (askAll evaluators callable value asked s.world).2 }

include hfacts

/-- **Comparisons**: with a callable, a switch with known tests compares them in order until an answer settles it. -/
theorem selectCase_some {tests : List (Expr × Expr)} (hknown : ∀ p ∈ tests, (o.facts.constantValue? p.1).isSome = true)
    (callable : κ) (s : Progress σ) :
    Compares o.evaluators callable value n fallback (o.facts.knownTests tests) s
      (o.selectCase n (some callable) value fallback tests s) := by
  induction tests generalizing s with
  | nil =>
    refine ⟨[], [], .ofBody? fallback, rfl, .exhausted, ?_⟩
    cases fallback with
    | some body => exact takeBranch_result n body s
    | none => rfl
  | cons p rest ih =>
    obtain ⟨test, body⟩ := p
    rw [List.forall_mem_cons] at hknown
    obtain ⟨candidate, hc⟩ := Option.isSome_iff_exists.1 hknown.1
    rw [selectCase_cons (hfacts test hknown.1) hc, knownTests_cons hc]
    generalize hanswer : o.evaluators.invoke callable [value, candidate] s.world = answered
    obtain ⟨answer, w⟩ := answered
    rw [compareWith_bind hanswer]
    -- An answer that settles the switch is the last one, and the remaining tests are not compared.
    have hlast : ∀ selection, Compared fallback [(candidate, body)] (o.facts.knownTests rest) [answer] selection →
        selectMatch n body (o.selectCase n (some callable) value fallback rest) (Match.ofOutcome answer)
          { s with world := w } = selection.result n { s with world := w } →
        Compares o.evaluators callable value n fallback ((candidate, body) :: o.facts.knownTests rest) s
          (selectMatch n body (o.selectCase n (some callable) value fallback rest) (Match.ofOutcome answer)
            { s with world := w }) := by
      intro selection hcompared hresult
      refine ⟨[(candidate, body)], o.facts.knownTests rest, selection, rfl, ?_⟩
      rw [askAll_singleton hanswer]
      exact ⟨hcompared, hresult⟩
    cases answer with
    | error e => exact hlast _ (.raises e.carries_unwrap) rfl
    | ok answer =>
      cases hb : answer.bool? with
      | none =>
        have hother : ∀ b, answer ≠ .bool b := by
          intro b heq
          rw [heq] at hb
          cases hb
        exact hlast _ (.undecided hother) (by simp only [Match.ofOutcome, hb]; rfl)
      | some equal =>
        obtain rfl := eq_bool_of_bool? hb
        cases equal with
        | true => exact hlast _ .matches (takeBranch_result n body _)
        | false =>
          obtain ⟨asked, rest', selection, htests, hcompared, hresult⟩ := ih hknown.2 { s with world := w }
          refine ⟨(candidate, body) :: asked, rest', selection, by rw [htests]; rfl, ?_⟩
          rw [askAll_cons hanswer]
          exact ⟨.differs hcompared, hresult⟩

/-! ### The rule -/

variable {again : Expr → Context → Run σ Expr} {cx : Context} {e : Expr} {cases : List (Case Expr)}

/-- The rule for a switch over a known value, without a comparison. -/
theorem rule_switch_none (hfold : o.settings.folding = true) (hform : n.form = .switch e none cases fallback)
    (hv : o.facts.constantValue? e = some value)
    (hknown : ∀ p ∈ caseTests cases, (o.facts.constantValue? p.1).isSome = true) (s : Progress σ) :
    o.rule again n cx s =
      (Selection.ofBody? (firstMatch value (o.facts.knownTests (caseTests cases)) <|> fallback)).result n s := by
  have hthrow : o.facts.alwaysThrows e = false := hfacts e (by rw [hv]; rfl)
  rw [← selectCase_none hfacts hknown]
  simp only [rule, hform, switch, hthrow, hfold, hv, if_true, if_false, Bool.false_eq_true]
  rfl

/-- The rule for a switch over a known value, with a comparison that is pure and was compiled. -/
theorem rule_switch_some (hfold : o.settings.folding = true) {method : Member}
    (hform : n.form = .switch e (some method) cases fallback) (hpure : o.facts.isPureMember method = true)
    (hv : o.facts.constantValue? e = some value)
    (hknown : ∀ p ∈ caseTests cases, (o.facts.constantValue? p.1).isSome = true) {callable : κ} {s : Progress σ} {w : World σ}
    (hcompile : o.evaluators.compile method s.world = (.ok callable, w)) :
    Compares o.evaluators callable value n fallback (o.facts.knownTests (caseTests cases)) { s with world := w }
      (o.rule again n cx s) := by
  have hthrow : o.facts.alwaysThrows e = false := hfacts e (by rw [hv]; rfl)
  have hrule : o.rule again n cx s = o.selectCase n (some callable) value fallback (caseTests cases) { s with world := w } := by
    simp only [rule, hform, switch, hthrow, hfold, hv, hpure, if_true, if_false, Bool.false_eq_true]
    exact compile?_bind hcompile _
  rw [hrule]
  exact selectCase_some hfacts hknown callable { s with world := w }

end Optimizer

open Optimizer

theorem Expr.isThrow_of_known (e : Expr) (h : e.constantValue?.isSome = true) : e.isThrow = false := by
  cases hform : e.form <;> simp_all [constantValue?, isThrow]

/-- **A switch over a known value** with known tests is a lookup: the body of the first test that equals the value, or the
fallback, is given the type of the switch and takes its place, or the fault of that is what comes of it; where nothing is
found, it becomes the default of its type. Cases that follow each other and have the same body may be one case, and cases
whose tests differ pairwise may come in any order. With a pure comparison that was compiled, the tests are compared in order
and each once, up to the first one that matches, raises or gives no truth value, and the host is asked for nothing else. What
is raised takes the place of the switch as a throw, without the wrapper of an indirect invocation. -/
theorem switch_selects_first_match {σ κ : Type} (catalog : Catalog) (evaluators : Evaluators σ κ) (hooks : Hooks σ)
    (settings : Settings) (folding : settings.folding = true) (again : Expr → Context → Run σ Expr) (cx : Context)
    (e : Expr) (value : Value) (known : e.constantValue? = some value) (cases : List (Case Expr)) (fallback : Option Expr)
    (testsKnown : ∀ p ∈ caseTests cases, p.1.constantValue?.isSome = true) :
    let o : Optimizer σ κ := ⟨catalog.facts, evaluators, hooks, settings⟩
    let tests := catalog.facts.knownTests (caseTests cases)
    (∀ n s, n.form = .switch e none cases fallback →
      o.rule again n cx s = (Selection.ofBody? (firstMatch value tests <|> fallback)).result n s) ∧
    (∀ n n' pre post ts ts' body, cases = pre ++ ⟨ts, body⟩ :: ⟨ts', body⟩ :: post → n'.ty = n.ty →
      n.form = .switch e none cases fallback → n'.form = .switch e none (pre ++ ⟨ts ++ ts', body⟩ :: post) fallback →
      o.rule again n' cx = o.rule again n cx) ∧
    (∀ n n' cases', tests.Pairwise (fun t t' => t.1.defaultEquals t'.1 = false) → cases.Perm cases' → n'.ty = n.ty →
      n.form = .switch e none cases fallback → n'.form = .switch e none cases' fallback →
      o.rule again n' cx = o.rule again n cx) ∧
    ∀ n method callable s w, n.form = .switch e (some method) cases fallback → catalog.isPureMember method = true →
      evaluators.compile method s.world = (.ok callable, w) →
      ∃ asked rest selection, tests = asked ++ rest ∧
        Compared fallback asked rest (askAll evaluators callable value asked w).1 selection ∧
        o.rule again n cx s = selection.result n { s with world := (askAll evaluators callable value asked w).2 } := by
  intro o tests
  have hfacts : ∀ e, (o.facts.constantValue? e).isSome = true → o.facts.alwaysThrows e = false := Expr.isThrow_of_known
  refine ⟨?_, ?_, ?_, ?_⟩
  · intro n s hform
    exact rule_switch_none hfacts folding hform known testsKnown s
  · intro n n' pre post ts ts' body hcases hty hform hform'
    have htests : caseTests (pre ++ ⟨ts ++ ts', body⟩ :: post) = caseTests cases := by rw [hcases, caseTests_merge]
    funext s
    rw [rule_switch_none hfacts folding hform known testsKnown,
      rule_switch_none hfacts folding hform' known (by rw [htests]; exact testsKnown), htests, Selection.result_congr hty]
  · intro n n' cases' hdistinct hperm hty hform hform'
    have htests : (caseTests cases).Perm (caseTests cases') := hperm.flatMap_right _
    have htestsKnown : ∀ p ∈ caseTests cases', p.1.constantValue?.isSome = true := fun p hp =>
      testsKnown p (htests.mem_iff.2 hp)
    have hmatch : firstMatch value tests = firstMatch value (catalog.facts.knownTests (caseTests cases')) :=
      firstMatch_perm value (htests.filterMap _) hdistinct
    funext s
    rw [rule_switch_none hfacts folding hform known testsKnown, rule_switch_none hfacts folding hform' known htestsKnown,
      Selection.result_congr hty, ← hmatch]
  · intro n method callable s w hform hpure hcompile
    exact rule_switch_some hfacts folding hform hpure known testsKnown hcompile

/-- A host that answers calls as written in a list, and writes down the operands. -/
def scripted : Evaluators (List (Except Exception Value) × List (List Value)) Unit where
  compile _ := return .ok ()
  invoke _ operands := do
    let w ← get
    set { w with host := (w.host.1.tail, w.host.2 ++ [operands]) }
    return w.host.1.headD (.ok .null)

/-- An integer as a node. -/
def numeral (id : Nat) (i : Int32) : Expr := ⟨.made id, .int, .constant (.int i)⟩

/-- The tests `1`, `2` and `3` select the first of two bodies, and `4` selects the second one. -/
def fourTests (first second : Expr) : List (Case Expr) :=
  [⟨[numeral 1 1, numeral 2 2], first⟩, ⟨[numeral 3 3], first⟩, ⟨[numeral 4 4], second⟩]

/-- A switch over `3` of type object, with the cases as they are, merged, in another order, and with a comparison that tells
`1` apart and raises a wrapped exception for `2`. The selected integer is converted to an object. The host is called for these
two tests only, and what the wrapper was put around is thrown. -/
theorem switch_selects_first_match_fourTests :
    let first : Expr := ⟨.made 5, .int, .var ⟨0, "x", .int⟩⟩
    let second : Expr := ⟨.made 6, .int, .var ⟨1, "y", .int⟩⟩
    let method : Member := ⟨"same", .object, .method, true, [⟨"a", .int⟩, ⟨"b", .int⟩], .bool, none⟩
    let catalog : Catalog := { Catalog.empty with pureMembers := ⟨[method]⟩ }
    let o : Optimizer (List (Except Exception Value) × List (List Value)) Unit := ⟨catalog.facts, scripted, .none, .standard⟩
    let switch (comparison : Option Member) (cases : List (Case Expr)) : Expr :=
      ⟨.made 7, .object, .switch (numeral 0 3) comparison cases none⟩
    let cases := fourTests first second
    let merged : List (Case Expr) := [⟨[numeral 1 1, numeral 2 2, numeral 3 3], first⟩, ⟨[numeral 4 4], second⟩]
    let again : Expr → Context → Run (List (Except Exception Value) × List (List Value)) Expr := fun e _ => pure e
    let raised : Exception := ⟨0, .exception, "no order", none⟩
    let script : List (Except Exception Value) := [.ok (.bool false), .error ⟨1, .targetInvocation, "failed", some raised⟩]
    let s : Progress (List (Except Exception Value) × List (List Value)) := ⟨⟨8⟩, ⟨⟨2⟩, script, []⟩, .empty⟩
    o.rule again (switch none cases) .plain s =
        .ok ⟨.made 8, .object, .convert first⟩ ⟨⟨9⟩, s.world, { Tally.empty with branches := 1 }⟩ ∧
      o.rule again (switch none merged) .plain = o.rule again (switch none cases) .plain ∧
      o.rule again (switch none cases.reverse) .plain = o.rule again (switch none cases) .plain ∧
      Compares scripted () (.int 3) (switch (some method) cases) none (catalog.facts.knownTests (caseTests cases)) s
        (o.rule again (switch (some method) cases) .plain s) ∧
      o.rule again (switch (some method) cases) .plain s =
        .ok ⟨.made 9, .object, .throw (some ⟨.made 8, .exception, .constant (.exception raised)⟩)⟩
          ⟨⟨10⟩, ⟨⟨2⟩, [], [[.int 3, .int 1], [.int 3, .int 2]]⟩, { Tally.empty with threw := 1 }⟩ := by
  intro first second method catalog o switch cases merged again raised script s
  have htests : ∀ p ∈ caseTests cases, p.1.constantValue?.isSome = true := by decide +kernel
  have hdistinct : (catalog.facts.knownTests (caseTests cases)).Pairwise fun t t' => t.1.defaultEquals t'.1 = false := by
    decide +kernel
  have hmatch : firstMatch (.int 3) (catalog.facts.knownTests (caseTests cases)) = some first := by
    show firstMatch (.int 3) [(.int 1, first), (.int 2, first), (.int 3, first), (.int 4, second)] = some first
    rw [firstMatch_cons_of_ne (by decide +kernel), firstMatch_cons_of_ne (by decide +kernel),
      firstMatch_cons_of_eq (by decide +kernel)]
  obtain ⟨hlookup, hmerge, hperm, hcompare⟩ := switch_selects_first_match catalog scripted .none .standard rfl again .plain
    (numeral 0 3) (.int 3) rfl cases none htests
  refine ⟨?_, ?_, ?_, ?_, ?_⟩
  · rw [hlookup (switch none cases) s rfl, hmatch]
    rfl
  · exact hmerge _ _ [] _ _ _ first rfl rfl rfl rfl
  · exact hperm _ _ _ hdistinct cases.reverse_perm.symm rfl rfl rfl
  · exact hcompare _ method () s s.world rfl (by decide +kernel) rfl
  · rfl

end TypedTree
