import TypedTree.Proofs.Steps

/-!
# What a scan of operands knows

Operands are evaluated from left to right up to the first that always throws. Those before it are the longest beginning of the
list in which none always throws (`Facts.RunsFirst`), and the scan describes exactly these: whether all of them are pure,
whether the values of all of them are known, the values if so, and the operand that ends them (`scan_describes_operands_run`).
Whatever comes after that operand is not asked about, so neither the operands there nor the facts about them matter.

The scan goes over the operands one by one and never takes back what it has said, except for the values, which it drops as
soon as one is not known. That it does not collect values again afterwards is the invariant `Operands.Tidy`.
-/

namespace TypedTree

/-! ### Operands that run -/

/-- The operands in `run` are those that are evaluated: the longest beginning of the list without one that always throws. -/
structure Facts.RunsFirst (facts : Facts) (operands run : List Expr) : Prop where
  begins : run <+: operands
  returns : ∀ e ∈ run, facts.alwaysThrows e = false
  longest : ∀ es, es <+: operands → (∀ e ∈ es, facts.alwaysThrows e = false) → es.length ≤ run.length

/-- The two have the same to say about some operands. -/
def Facts.AgreeOn (facts facts' : Facts) (es : List Expr) : Prop :=
  ∀ e ∈ es, facts.alwaysThrows e = facts'.alwaysThrows e ∧ facts.isPure e = facts'.isPure e ∧
    facts.constantValue? e = facts'.constantValue? e

namespace Facts

variable {facts : Facts} {operands run : List Expr}

theorem runsFirst_self (h : ∀ e ∈ operands, facts.alwaysThrows e = false) : facts.RunsFirst operands operands where
  begins := List.prefix_rfl
  returns := h
  longest _ hes _ := hes.length_le

theorem runsFirst_of_throws {t : Expr} {post : List Expr} (h : ∀ e ∈ run, facts.alwaysThrows e = false)
    (ht : facts.alwaysThrows t = true) : facts.RunsFirst (run ++ t :: post) run where
  begins := List.prefix_append _ _
  returns := h
  longest es hes hreturns := by
    by_contra hlong
    have htaken : run ++ [t] <+: es :=
      List.prefix_of_prefix_length_le ⟨post, by simp⟩ hes (by rw [List.length_append, List.length_singleton]; omega)
    have hreturn := hreturns t (htaken.subset (by simp))
    rw [ht] at hreturn
    cases hreturn

/-- Either all operands run, or the next one throws. -/
theorem RunsFirst.cases (h : facts.RunsFirst operands run) :
    run = operands ∨ ∃ t post, operands = run ++ t :: post ∧ facts.alwaysThrows t = true := by
  obtain ⟨rest, rfl⟩ := h.begins
  cases rest with
  | nil => exact .inl (List.append_nil run).symm
  | cons t post =>
    refine .inr ⟨t, post, rfl, ?_⟩
    by_contra ht
    have hreturns : ∀ e ∈ run ++ [t], facts.alwaysThrows e = false := by
      rw [List.forall_mem_append, List.forall_mem_singleton]
      exact ⟨h.returns, by simpa using ht⟩
    have hlong := h.longest (run ++ [t]) ⟨post, by simp⟩ hreturns
    rw [List.length_append, List.length_singleton] at hlong
    omega

theorem exists_runsFirst (facts : Facts) (operands : List Expr) : ∃ run, facts.RunsFirst operands run := by
  obtain ⟨pre, t, post, rfl, hpre, ht, _⟩ | ⟨h, _⟩ := @Operands.scan_cases facts operands .none 0
  · exact ⟨pre, runsFirst_of_throws hpre ht⟩
  · exact ⟨operands, runsFirst_self h⟩

end Facts

/-! ### The scan -/

namespace Operands

variable {facts facts' : Facts} {run : List Expr}

/-- The scan takes in operands that do not throw, one by one. -/
theorem scan_append (h : ∀ e ∈ run, facts.alwaysThrows e = false) (o : Operands) (position : Nat) (es : List Expr) :
    scan facts o position (run ++ es) = scan facts (run.foldl (push facts) o) (position + run.length) es := by
  induction run generalizing o position with
  | nil => rfl
  | cons e run ih =>
    obtain ⟨he, hrun⟩ := List.forall_mem_cons.1 h
    rw [List.cons_append, scan, if_neg (by simp [he]), ih hrun, List.foldl_cons, List.length_cons]
    congr 1
    omega

theorem analyze_returns (h : ∀ e ∈ run, facts.alwaysThrows e = false) :
    analyze facts run = run.foldl (push facts) .none := by
  have hscan := scan_append h .none 0 []
  rwa [List.append_nil] at hscan

theorem analyze_throws (h : ∀ e ∈ run, facts.alwaysThrows e = false) {t : Expr} (ht : facts.alwaysThrows t = true)
    (post : List Expr) :
    analyze facts (run ++ t :: post) = { run.foldl (push facts) .none with thrower := some (run.length, t) } := by
  rw [analyze, scan_append h, scan, if_pos ht, Nat.zero_add]

theorem push_allKnown (o : Operands) (e : Expr) : (o.push facts e).allKnown = (o.allKnown && facts.isKnown e) := by
  cases ho : o.allKnown <;> cases hv : facts.constantValue? e <;> simp [push, Facts.isKnown, ho, hv]

theorem foldl_push_allKnown (es : List Expr) (o : Operands) :
    (es.foldl (push facts) o).allKnown = (o.allKnown && es.all facts.isKnown) := by
  induction es generalizing o with
  | nil => simp
  | cons e es ih => rw [List.foldl_cons, ih, push_allKnown, List.all_cons, Bool.and_assoc]

/-- There are no values unless all are known. -/
def Tidy (o : Operands) : Prop := o.allKnown = false → o.values = []

/-- **One operand**: values that were dropped are not collected again. -/
theorem Tidy.push {o : Operands} (h : o.Tidy) (e : Expr) : (o.push facts e).Tidy := by
  intro hunknown
  rw [push_allKnown] at hunknown
  cases ho : o.allKnown with
  | false => simpa [Operands.push, ho] using h ho
  | true =>
    have hvalue : facts.constantValue? e = Option.none := by simpa [ho, Facts.isKnown] using hunknown
    simp [Operands.push, ho, hvalue]

theorem Tidy.foldl_push {o : Operands} (h : o.Tidy) (es : List Expr) : (es.foldl (Operands.push facts) o).Tidy := by
  induction es generalizing o with
  | nil => exact h
  | cons e es ih => exact ih (h.push e)

theorem foldl_push_congr (h : facts.AgreeOn facts' run) (o : Operands) : run.foldl (push facts) o = run.foldl (push facts') o := by
  induction run generalizing o with
  | nil => rfl
  | cons e run ih =>
    obtain ⟨⟨_, hpure, hvalue⟩, hrun⟩ := List.forall_mem_cons.1 h
    rw [List.foldl_cons, List.foldl_cons, ih hrun]
    congr 1
    unfold push
    rw [hpure, hvalue]

/-- **After a throw** nothing matters: other operands may stand there, and the facts about them may differ. -/
theorem analyze_congr {t : Expr} (h : ∀ e ∈ run, facts.alwaysThrows e = false) (ht : facts.alwaysThrows t = true)
    (hfacts : facts.AgreeOn facts' (run ++ [t])) (post post' : List Expr) :
    analyze facts' (run ++ t :: post') = analyze facts (run ++ t :: post) := by
  obtain ⟨hrun, htail⟩ := List.forall_mem_append.1 hfacts
  have ht' : facts'.alwaysThrows t = true := (htail t (List.mem_singleton_self t)).1 ▸ ht
  have h' : ∀ e ∈ run, facts'.alwaysThrows e = false := fun e he => (hrun e he).1 ▸ h e he
  rw [analyze_throws h ht, analyze_throws h' ht', foldl_push_congr hrun]

/-- What is found is what the operands that run amount to, and the operand that ends them. -/
theorem analyze_of_runsFirst {operands : List Expr} (h : facts.RunsFirst operands run) :
    ∃ thrower, analyze facts operands = { run.foldl (push facts) .none with thrower := thrower } ∧
      (run = operands ∧ thrower = .none ∨
        ∃ t post, operands = run ++ t :: post ∧ facts.alwaysThrows t = true ∧ thrower = some (run.length, t)) := by
  obtain rfl | ⟨t, post, rfl, ht⟩ := h.cases
  · have hnone : (run.foldl (push facts) .none).thrower = .none := foldl_push_thrower run rfl
    refine ⟨.none, ?_, .inl ⟨rfl, rfl⟩⟩
    rw [analyze_returns h.returns, ← hnone]
  · exact ⟨_, analyze_throws h.returns ht post, .inr ⟨t, post, rfl, ht, rfl⟩⟩

end Operands

/-- **The scan** of an optional first operand and of the others describes the operands that run. Where one of them throws, the
facts about later operands are not asked for, and the later operands may as well be others. -/
theorem scan_describes_operands_run (facts : Facts) (first : Option Expr) (rest : List Expr) :
    let operands := first.toList ++ rest
    let known := Operands.analyze facts operands
    (∃ run, facts.RunsFirst operands run) ∧ ∀ run, facts.RunsFirst operands run →
      (run = operands ∧ known.thrower = none ∨ ∃ t post, operands = run ++ t :: post ∧ facts.alwaysThrows t = true ∧
        known.thrower = some (run.length, t) ∧ ∀ (facts' : Facts) (post' : List Expr), facts.AgreeOn facts' (run ++ [t]) →
          Operands.analyze facts' (run ++ t :: post') = known) ∧
      (known.allPure = true ↔ ∀ e ∈ run, facts.isPure e = true) ∧
      (known.allKnown = true ↔ ∀ e ∈ run, ∃ value, facts.constantValue? e = some value) ∧
      (known.allKnown = true → facts.Knows run known.values) ∧ (known.allKnown = false → known.values = []) := by
  intro operands known
  refine ⟨facts.exists_runsFirst operands, fun run hrun => ?_⟩
  obtain ⟨thrower, hknown, hthrower⟩ := Operands.analyze_of_runsFirst hrun
  have hunknown : (run.foldl (Operands.push facts) .none).Tidy := Operands.Tidy.foldl_push (fun h => by cases h) run
  simp only [known, hknown]
  refine ⟨?_, ?_, ?_, ?_, hunknown⟩
  · obtain hall | ⟨t, post, hops, ht, hthrower⟩ := hthrower
    · exact .inl hall
    · refine .inr ⟨t, post, hops, ht, hthrower, fun facts' post' hfacts => ?_⟩
      rw [Operands.analyze_congr hrun.returns ht hfacts post post', ← hops, hknown]
  · simp [Operands.foldl_push_allPure, Operands.none]
  · simp [Operands.foldl_push_allKnown, Operands.none, Facts.isKnown, Option.isSome_iff_exists]
  · intro h
    obtain ⟨_, values, hvs, heq⟩ := Operands.foldl_push_values run h
    rw [heq]
    exact hvs

/-- A member that only some catalog knows to be pure. -/
def logging : Member := ⟨"Log", .object, .method, true, [], .string, none⟩

/-- A text is known, the next operand throws, and it does not matter whether the call after it is known to be pure. -/
theorem scan_describes_operands_run_stopped :
    let text : Expr := ⟨.made 0, .string, .constant (.string "a")⟩
    let stop : Expr := ⟨.made 1, .string, .throw none⟩
    let call : Expr := ⟨.made 2, .string, .call none logging []⟩
    let facts := Catalog.empty.facts
    let facts' := { Catalog.empty with pureMembers := .ofList [logging] }.facts
    let known := Operands.analyze facts [text, stop, call]
    facts.RunsFirst [text, stop, call] [text] ∧ facts.AgreeOn facts' [text, stop] ∧
      facts.isPure call = false ∧ facts'.isPure call = true ∧ known.thrower = some (1, stop) ∧
      known.allPure = true ∧ facts.Knows [text] known.values ∧ Operands.analyze facts' [text, stop, call] = known := by
  intro text stop call facts facts' known
  have hreturns : ∀ e ∈ [text], facts.alwaysThrows e = false := by decide
  have hrun : facts.RunsFirst [text, stop, call] [text] := Facts.runsFirst_of_throws hreturns rfl
  have hfacts : facts.AgreeOn facts' [text, stop] := by
    simp only [Facts.AgreeOn, List.forall_mem_cons, List.not_mem_nil, false_imp_iff, implies_true, and_true]
    exact ⟨⟨rfl, rfl, rfl⟩, ⟨rfl, rfl, rfl⟩⟩
  obtain ⟨hthrower, hpure, hknown, hvalues, _⟩ := (scan_describes_operands_run facts (some text) [stop, call]).2 [text] hrun
  have hall : known.allKnown = true := hknown.2 (by simpa using ⟨_, rfl⟩)
  obtain ⟨hall, _⟩ | ⟨t, post, hops, _, ht, hlater⟩ := hthrower
  · simp at hall
  · obtain ⟨rfl, rfl⟩ : t = stop ∧ post = [call] := by simpa [eq_comm] using hops
    exact ⟨hrun, hfacts, by decide +kernel, by decide +kernel, ht, hpure.2 (by decide +kernel), hvalues hall,
      hlater facts' [call] hfacts⟩

end TypedTree
