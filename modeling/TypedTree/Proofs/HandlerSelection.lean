import TypedTree.Proofs.Propagation

/-!
# Which handler is selected

An exception that leaves a body is handled by the first clause whose type admits it and whose filter accepts it
(`Clause.select`). Filters run in the order of the clauses, may have effects, and may turn out differently each time; of those
whose value is known it is only asked that they turn out as known (`Facts.Foresees`).

The rule for handlers drops clauses and parts of clauses. A clause that is kept accepts what it did before
(`Optimizer.Simplified.accepts_eq`), and one that is dropped accepts nothing, so the same handler is selected for every
exception, after the same filters have run (`Optimizer.selectsAlike_of_leaves`).
-/

namespace TypedTree

/-! ### Selection -/

section Selection

variable {ω : Type} (eval : Expr → StateM ω Bool) (raised : Ty)

/-- Whether the clause handles an exception of the type `raised`: if its own type admits that, its filter decides. -/
def Clause.accepts (c : Clause Expr) : StateM ω Bool :=
  if c.test.assignableFrom raised then c.filter.elim (pure true) eval else pure false

/-- The clause that handles an exception of the type `raised`: the first that accepts it. -/
def Clause.select (cs : List (Clause Expr)) : StateM ω (Option (Clause Expr)) := cs.findM? (accepts eval raised)

theorem Clause.select_cons (c : Clause Expr) (cs : List (Clause Expr)) (w : ω) :
    select eval raised (c :: cs) w =
      if (c.accepts eval raised w).1 then (some c, (c.accepts eval raised w).2)
      else select eval raised cs (c.accepts eval raised w).2 := by
  rw [select, List.findM?]
  cases h : c.accepts eval raised w with
  | mk accepted w' =>
    simp only [bind, StateT.bind, h]
    cases accepted <;> rfl

/-- Filters whose value is known turn out as known. -/
structure Facts.Foresees (facts : Facts) : Prop where
  isTrue : ∀ f, facts.isTrue f = true → eval f = pure true
  isFalse : ∀ f, facts.isFalse f = true → eval f = pure false

end Selection

/-- The clause `d` handles exceptions as the clause `c` does: it has the same type and body, and the bound variable wherever
that is used. -/
structure Clause.SameHandler (c d : Clause Expr) : Prop where
  test : d.test = c.test
  body : d.body = c.body
  bound : ∀ x ∈ c.binding, x ∈ freeVars c.children → d.binding = some x
  binding : ∀ x ∈ d.binding, c.binding = some x

/-- For every exception and all that filters may do, the same handler is selected in `kept` as in `clauses`, or none in either,
and the same filters with effects have run. -/
def Facts.SelectsAlike (facts : Facts) (clauses kept : List (Clause Expr)) : Prop :=
  ∀ {ω : Type} (eval : Expr → StateM ω Bool), facts.Foresees eval → ∀ raised w,
    Option.Rel Clause.SameHandler (Clause.select eval raised clauses w).1 (Clause.select eval raised kept w).1 ∧
      (Clause.select eval raised kept w).2 = (Clause.select eval raised clauses w).2

theorem Facts.selectsAlike_refl (facts : Facts) (clauses : List (Clause Expr)) : facts.SelectsAlike clauses clauses := by
  intro ω eval _ raised w
  refine ⟨optionRel_imp (optionRel_of_eq rfl) fun c d _ hcd => ?_, rfl⟩
  exact hcd ▸ ⟨rfl, rfl, fun _ hx _ => hx, fun _ hx => hx⟩

/-- For no exception, whatever filters may do, a handler is selected. -/
def Facts.SelectsNone (facts : Facts) (clauses : List (Clause Expr)) : Prop :=
  ∀ {ω : Type} (eval : Expr → StateM ω Bool), facts.Foresees eval → ∀ raised w,
    Clause.select eval raised clauses w = (none, w)

namespace Optimizer

variable {σ κ : Type} {o : Optimizer σ κ} {ω : Type} {eval : Expr → StateM ω Bool} {raised : Ty}
variable {c d : Clause Expr} {cs : List (Clause Expr)}

/-! ### Clauses that are kept or dropped -/

theorem Simplified.accepts_eq (h : o.Simplified d c) (heval : o.facts.Foresees eval) :
    d.accepts eval raised = c.accepts eval raised := by
  unfold Clause.accepts
  rw [h.test, h.filter]
  cases hf : c.filter with
  | none => rfl
  | some f =>
    by_cases htrue : o.facts.isTrue f = true
    · simp [htrue, heval.isTrue f htrue]
    · simp [htrue]

theorem Simplified.sameHandler (h : o.Simplified d c) : c.SameHandler d where
  test := h.test
  body := h.body
  bound x hx hfree := by
    have hused : hasUnusedBinding c = false := by
      rw [hasUnusedBinding, hx, Option.any_some, isFreeIn]
      simpa using hfree
    rw [h.binding, hused]
    exact hx
  binding x hx := by
    rw [h.binding] at hx
    split at hx
    · cases hx
    · exact hx

/-- What is left of a clause: the clause simplified, or nothing when its filter is known not to hold. -/
structure Leaves (o : Optimizer σ κ) (c : Clause Expr) (found : Option (Clause Expr)) : Prop where
  kept : ∀ d ∈ found, o.Simplified d c
  dropped : found = none → c.filter.any o.facts.isFalse = true

theorem accepts_of_isFalse (h : c.filter.any o.facts.isFalse = true) (heval : o.facts.Foresees eval) :
    c.accepts eval raised = pure false := by
  obtain ⟨f, hf, hfalse⟩ := (Option.any_eq_true _ _).1 h
  simp [Clause.accepts, hf, heval.isFalse f hfalse]

/-- The handlers that are left select as all of them did. -/
theorem selectsAlike_of_leaves {founds : List (Option (Clause Expr))} (h : List.Forall₂ o.Leaves cs founds) :
    o.facts.SelectsAlike cs (founds.filterMap id) := by
  intro ω eval heval raised w
  induction h generalizing w with
  | nil => exact ⟨.none, rfl⟩
  | @cons c found cs founds hleaves _ ih =>
    cases found with
    | none =>
      rw [List.filterMap_cons_none rfl, Clause.select_cons, accepts_of_isFalse (hleaves.dropped rfl) heval]
      exact ih w
    | some d =>
      have hd : o.Simplified d c := hleaves.kept d rfl
      rw [List.filterMap_cons, id_eq, Clause.select_cons, Clause.select_cons, hd.accepts_eq heval]
      split
      · exact ⟨.some hd.sameHandler, rfl⟩
      · exact ih _

/-- When nothing is left, nothing was selected. -/
theorem selectsNone_of_leaves {founds : List (Option (Clause Expr))} (h : List.Forall₂ o.Leaves cs founds)
    (hnone : founds.filterMap id = []) : o.facts.SelectsNone cs := by
  intro ω eval heval raised w
  have halike := selectsAlike_of_leaves h eval heval raised w
  rw [hnone] at halike
  refine Prod.ext ?_ halike.2.symm
  generalize (Clause.select eval raised cs w).1 = selected at halike
  cases halike.1
  rfl

/-! ### The rule -/

section Rule

open Run

variable {E : Halt → Prop}

theorem dropBinding_halting (c : Clause Expr) : (halting E).reaches .now (dropBinding c : Run σ (Clause Expr)) fun _ d =>
    d.test = c.test ∧ d.body = c.body ∧ d.filter = c.filter ∧
      d.binding = if hasUnusedBinding c then none else c.binding := by
  unfold dropBinding
  split
  · refine (halting E).ofBind (halting_fresh _) ?_
    rintro ⟨⟩ - _ ⟨nodes, rfl⟩
    exact (halting E).ofBind haltsAs_record fun _ _ _ _ => (halting E).ofPure fun _ _ => ⟨rfl, rfl, rfl, rfl⟩
  · exact (halting E).ofPure fun _ _ => ⟨rfl, rfl, rfl, rfl⟩

theorem dropFilter_halting (c : Clause Expr) : (halting E).reaches .now (o.dropFilter c) fun _ d =>
    d.test = c.test ∧ d.body = c.body ∧ d.binding = c.binding ∧
      d.filter = if c.filter.any o.facts.isTrue then none else c.filter := by
  unfold dropFilter
  split
  · next h =>
    obtain ⟨f, hf, _⟩ := (Option.any_eq_true _ _).1 h
    have hparts : c.withParts none c.body = Clause.make c.test c.binding none c.body := by
      simp [Clause.withParts, hf, Expr.sameOption]
    rw [hparts]
    refine (halting E).ofBind (halting_fresh _) ?_
    rintro ⟨⟩ - _ ⟨nodes, rfl⟩
    exact (halting E).ofBind haltsAs_record fun _ _ _ _ => (halting E).ofPure fun _ _ => ⟨rfl, rfl, rfl, rfl⟩
  · exact (halting E).ofPure fun _ _ => ⟨rfl, rfl, rfl, rfl⟩

theorem simplifyClause_halting (c : Clause Expr) :
    (halting E).reaches .now (o.simplifyClause c) fun _ found => o.Leaves c found := by
  refine (halting E).ofBind (dropBinding_halting c) ?_
  rintro ⟨⟩ - d ⟨htest, hbody, hfilter, hbinding⟩
  refine (halting E).ofBind (dropFilter_halting d) ?_
  rintro ⟨⟩ - d' ⟨htest', hbody', hbinding', hfilter'⟩
  have hfilter' : d'.filter = if c.filter.any o.facts.isTrue then none else c.filter := by rw [hfilter', hfilter]
  split
  · next hdead =>
    have hfalse : c.filter.any o.facts.isFalse = true := by
      have hdead := (Bool.and_eq_true_iff.1 hdead).2
      rw [hfilter'] at hdead
      split at hdead
      · cases hdead
      · exact hdead
    exact (halting E).ofBind haltsAs_record fun _ _ _ _ => (halting E).ofPure fun _ _ => ⟨by simp, fun _ => hfalse⟩
  · next halive =>
    refine (halting E).ofPure fun _ _ => ⟨?_, by simp⟩
    rintro _ ⟨⟩
    exact ⟨htest'.trans htest, hbody'.trans hbody, hbinding'.trans hbinding, hfilter', by simpa using halive⟩

theorem simplifyClauses_halting (cs : List (Clause Expr)) : (halting E).reaches .now (o.simplifyClauses cs) fun _ kept =>
    o.facts.SelectsAlike cs kept ∧ (kept = [] → o.facts.SelectsNone cs) := by
  refine (halting E).ofBind ((halting E).mapM_list (R := fun _ => o.Leaves) (fun _ _ _ _ _ h => h) ?_) ?_
  · rintro c - ⟨⟩ -
    exact simplifyClause_halting c
  · exact fun _ _ founds h => (halting E).ofPure fun _ _ => ⟨selectsAlike_of_leaves h, selectsNone_of_leaves h⟩

end Rule

end Optimizer

/-- **Handlers**: the rule gives either the body with handlers that select alike, and with the same nodes for what runs
besides, or the body alone, retyped. The latter happens only without a cleanup, and when the body raises nothing or no handler
can be selected and there is none for faults; it is halted only when the body cannot be retyped. -/
theorem handler_selection_kept {σ κ : Type} (o : Optimizer σ κ) (again : Expr → Context → Run σ Expr) (n body : Expr)
    (clauses : List (Clause Expr)) (cleanup onFault : Option Expr)
    (form : n.form = .tryCatch body clauses cleanup onFault) (cx : Context) (s : Progress σ) :
    (o.rule again n cx).Ends s
      (fun r _ =>
        (∃ kept, r.ty = n.ty ∧ r.form = .tryCatch body kept cleanup onFault ∧ o.facts.SelectsAlike clauses kept) ∨
          (Expr.Becomes n.ty body r ∧ cleanup = none ∧
            (onFault = none ∧ o.facts.SelectsNone clauses ∨ o.facts.neverThrows body = true)))
      (fun halt => ∃ fault nodes, halt = .fault fault ∧ body.retype n.ty nodes = .error fault) := by
  have hrule : o.rule again n cx = o.tryCatch n body clauses cleanup onFault := by rw [Optimizer.rule, form]
  rw [hrule, Optimizer.tryCatch]
  refine Run.ends_bind (Optimizer.simplifyClauses_halting clauses .now trivial s trivial) ?_
  rintro kept s₁ ⟨-, -, -, halike, hnone⟩
  split
  · next hcollapse =>
    simp only [Bool.and_eq_true, Bool.or_eq_true, Option.isNone_iff_eq_none, List.isEmpty_iff] at hcollapse
    obtain ⟨⟨-, hcleanup⟩, hwhy⟩ := hcollapse
    have hwhy : onFault = none ∧ o.facts.SelectsNone clauses ∨ o.facts.neverThrows body = true := by
      obtain ⟨hkept, hfault⟩ | hquiet := hwhy
      · exact .inl ⟨hfault, hnone hkept⟩
      · exact .inr hquiet
    refine Optimizer.ends_recorded (Run.ends_fallible ?_ ?_)
    · exact fun r nodes h => .inr ⟨⟨_, nodes, h⟩, hcleanup, hwhy⟩
    · exact fun fault h => ⟨fault, _, rfl, h⟩
  split
  · exact Run.ends_pure (.inl ⟨clauses, rfl, form, o.facts.selectsAlike_refl clauses⟩)
  · exact Run.ends_fresh (.inl ⟨kept, rfl, rfl, halike⟩)

/-- A call of a method of the library, whose exceptions are handled by the second of two clauses: the filter of the first
never holds, and that of the second always does. The second binds a variable that it does not use. -/
def filteredCall : Fresh .node Expr := do
  let method : Member := ⟨"f", .object, .method, true, [], .int, none⟩
  let call ← Expr.call none method []
  let never ← Clause.make .exception none (some (Expr.boolean false)) (← Expr.integer 1)
  let always ← Clause.make .exception (some ⟨0, "raised", .exception⟩) (some (Expr.boolean true)) (← Expr.integer 2)
  Expr.tryCatch call [never, always] none none

/-- One clause is left, without its filter and its variable, and it selects as the two did. -/
theorem handler_selection_kept_filteredCall :
    let n := (filteredCall ⟨0⟩).1
    let s : Progress Console := ⟨(filteredCall ⟨0⟩).2, ⟨⟨0⟩, .empty⟩, .empty⟩
    ∃ body clauses r s' kept, n.form = .tryCatch body clauses none none ∧ clauses.length = 2 ∧
      Optimizer.bare.rule Optimizer.bare.visitMade n .plain s = .ok r s' ∧ r.form = .tryCatch body kept none none ∧
        kept.map (fun c => (c.binding, c.filter.isNone)) = [(none, true)] ∧
          Optimizer.bare.facts.SelectsAlike clauses kept := by
  intro n s
  obtain ⟨body, clauses, hform, hlength, hty, hbody⟩ : ∃ body clauses, n.form = .tryCatch body clauses none none ∧
    clauses.length = 2 ∧ body.ty = n.ty ∧ body.form.clauses = [] := ⟨_, _, rfl, rfl, rfl, rfl⟩
  have hok : Run.passes (fun r _ => r.form.clauses.map (fun c => (c.binding, c.filter.isNone)) == [(none, true)])
      (Optimizer.bare.rule Optimizer.bare.visitMade n .plain s) = true := by decide +kernel
  obtain ⟨r, s', hrun, hclauses⟩ := Run.exists_of_passes hok
  have hclauses : r.form.clauses.map (fun c => (c.binding, c.filter.isNone)) = [(none, true)] := by simpa using hclauses
  have hends := handler_selection_kept Optimizer.bare Optimizer.bare.visitMade n body clauses none none hform .plain s
  obtain ⟨kept, _, hr, halike⟩ | ⟨⟨nodes, nodes', hretype⟩, _⟩ := hends.of_eq hrun
  · refine ⟨body, clauses, r, s', kept, hform, hlength, hrun, hr, ?_, halike⟩
    rwa [hr] at hclauses
  · rw [Expr.retype_eq, if_pos (by simpa using hty)] at hretype
    cases hretype
    rw [hbody] at hclauses
    cases hclauses

end TypedTree
