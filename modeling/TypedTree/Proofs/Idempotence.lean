import TypedTree.Proofs.NormalForms

/-!
# A second run changes nothing

A visit of a normal form gives back the very node and counts no change: the visited sub-expressions are the ones the node
has, so it is not made again, and its rule keeps it (`Optimizer.pass_still`). Visits of well-typed trees give normal forms,
so a run on the result of a run changes nothing (`optimize_idempotent`).
-/

namespace TypedTree

namespace Optimizer

variable {σ κ : Type} {o : Optimizer σ κ} {c : Catalog} {e : Expr}

/-- **A pass over a normal form** gives the node itself and counts nothing. -/
theorem pass_still (ho : o.Regular c) (again : Expr → Context → Run σ Expr) (t : Nat) (he : o.Normal e) :
    (Run.still t).reaches .now (o.pass again e .plain) fun _ r => r = e := by
  induction e using Expr.inductionOn with
  | node e ih =>
    rw [pass_eq, ho.hooks]
    refine (Run.still t).ofBind (Run.still_effect _) ?_
    rintro _ _ _ ⟨w, rfl⟩
    refine (Run.still t).ofBind (Run.still_effect _) ?_
    rintro _ _ _ ⟨w, rfl⟩
    rw [Hooks.none_transparent.before]
    simp only [Expr.same, beq_self_eq_true, if_true]
    let R : Moment → Expr × Context → Expr → Prop := fun _ p b => b = p.1
    refine (Run.still t).ofBind (Form.mapM_reaches (Run.still t) (R := R) (fun _ _ _ _ _ h => h) ?_) ?_
    · intro p hp _ _
      rw [ho.inContext_plain, Form.children_map] at hp
      obtain ⟨a, ha, rfl⟩ := List.mem_map.1 hp
      exact ih a ha (he.child ha)
    intro _ _ form hform
    have hparts := (ho.visited hform).children.imp fun _ _ => Eq.symm
    rw [List.forall₂_eq_eq_eq] at hparts
    rw [Expr.rebuild_self hparts]
    refine (Run.still t).ofBind (Run.still_fresh _) ?_
    rintro _ _ _ ⟨w, rfl⟩
    refine (Run.still t).ofBind (he.here.2 again t) ?_
    rintro _ _ _ rfl
    rw [if_neg (by simp), if_pos (by simp [Expr.same])]
    exact (Run.still t).ofPure fun _ _ => rfl

/-- **A run on a normal form** gives the node itself and counts nothing. -/
theorem optimize_normal (ho : o.Regular c) (he : o.Normal e) (s : Progress σ) :
    ∃ s', o.optimize e s = .ok e s' ∧ s'.tally.total = 0 := by
  have hvisit : (Run.still 0).reaches .now (if o.settings.level == .none then pure e else o.visit e .plain : Run σ Expr)
      fun _ r => r = e := by
    split
    · exact (Run.still 0).ofPure fun _ _ => rfl
    · rw [visit]
      cases o.hooks.allowance with
      | zero => exact pass_still ho _ 0 he
      | succ fuel => exact pass_still ho _ 0 he
  obtain ⟨s₁, hrun, ht⟩ := Run.still_run (s := starting e s) hvisit
  exact ⟨counted e s₁, by rw [optimize_run, hrun], ht⟩

/-- A run on a well-typed tree gives a normal form, unless all reductions are turned off. -/
theorem normal_of_optimize (ho : o.Regular c) {s s' : Progress σ} {r : Expr} (he : e.Identified s.nodes)
    (hty : e.WellTyped) (hlevel : (o.settings.level == .none) = false) (hrun : o.optimize e s = .ok r s') :
    o.Normal r := by
  have hhooks : o.hooks.Transparent := by rw [ho.hooks]; exact Hooks.none_transparent
  rw [optimize_run, hlevel] at hrun
  split at hrun
  · next r₁ s₁ hvisit =>
    cases hrun
    exact (visits_of_visit hhooks (s := starting e s) he hvisit).normal ho s rfl hty
  · cases hrun

end Optimizer

/-! ### Two runs -/

open Store

/-- **A second run changes nothing**: for a well-typed tree, whatever the settings, with a catalog in which no parameter is
only read, evaluators that answer alike each time and hooks that change nothing, a run on the result of a run gives that
very node and counts no change, from every state. -/
theorem optimize_idempotent {σ κ : Type} (catalog : Catalog) (evaluators : Evaluators σ κ) (settings : Settings)
    (writable : ∀ p, catalog.isReadOnly p = false) (steady : evaluators.Steady) (e r : Expr) (s s' : Progress σ)
    (identified : e.Identified s.nodes) (well_typed : e.WellTyped) :
    let o : Optimizer σ κ := ⟨catalog.facts, evaluators, .none, settings⟩
    o.optimize e s = .ok r s' → ∀ s₁, ∃ s₂, o.optimize r s₁ = .ok r s₂ ∧ s₂.tally.total = 0 := by
  intro o hrun s₁
  have ho : o.Regular catalog := ⟨rfl, writable, steady, rfl⟩
  cases hlevel : settings.level == .none with
  | true =>
    have hidle : o.optimize r s₁ = .ok r (Optimizer.counted r (Optimizer.starting r s₁)) := by
      rw [Optimizer.optimize_run, hlevel]
      rfl
    exact ⟨_, hidle, rfl⟩
  | false => exact Optimizer.optimize_normal ho (Optimizer.normal_of_optimize ho identified well_typed hlevel hrun) s₁

/-- Native functions answer alike each time, but for the identities of what they make and the number of calls. -/
theorem Native.verdict_apply (f : Native) (args : List Value) (calls calls' : Nat) (w w' : Supply .reference) :
    verdict (f.apply calls args w).1 = verdict (f.apply calls' args w').1 := by
  unfold apply
  split
  case h_1 a b =>
    by_cases h : Int32.minValue.toInt ≤ a.toInt + b.toInt ∧ a.toInt + b.toInt ≤ Int32.maxValue.toInt
    · simp only [if_pos h]
      rfl
    · simp only [if_neg h]
      rfl
  case h_2 a b => cases a.integer? <;> cases b.integer? <;> rfl
  case h_11 n => cases args[n]? <;> rfl
  case h_15 name o => cases o.field? name <;> rfl
  all_goals rfl

theorem Registry.natives_steady (registry : Registry Registration) : registry.natives.Steady where
  compile _ _ _ := rfl
  invoke callable values w w' := Native.verdict_apply callable.function values _ _ w.references w'.references

/-- A method of the library that joins two texts. -/
def joining : Member := ⟨"join", .string, .method, true, [⟨"first", .string⟩, ⟨"second", .string⟩], .string, none⟩

/-- A catalog in which the method is known to have no side effect. -/
def joiningCatalog : Catalog := { Catalog.empty with pureMembers := ⟨[joining]⟩ }

/-- The method can be run. -/
def joiner : Registry Registration := Registry.empty.register joining ⟨0, joining, .concat⟩

/-- A function literal that joins a text with its parameter if two conditions hold, and gives one of two equal texts
otherwise; it is invoked on a text. -/
def nestedChoice : Fresh .node Expr := do
  let x : Var := ⟨0, "x", .string⟩
  let test ← Expr.typeTest (← Expr.var ⟨1, "y", .object⟩) .string .isInstance
  let joined ← Expr.call none joining [← Expr.string "a", ← Expr.var x]
  let inner ← Expr.conditional test joined (← Expr.string "c") .string
  let outer ← Expr.conditional (← Expr.var ⟨2, "z", .bool⟩) inner (← Expr.string "c") .string
  Expr.invoke (← Expr.lambda [x] outer) [← Expr.string "b"]

theorem nestedChoice_reaches : making.reaches initial nestedChoice fun st e => e ∈ st := by
  refine making.ofBind (Expr.make_mem rfl (List.forall_mem_nil _)) fun st₁ _ y hy => ?_
  refine making.ofBind (Expr.make_mem rfl (by simpa [Form.children] using hy)) fun st₂ _ test htest => ?_
  refine making.ofBind (Expr.make_mem rfl (List.forall_mem_nil _)) fun st₃ hst₃ first hfirst => ?_
  refine making.ofBind (Expr.make_mem rfl (List.forall_mem_nil _)) fun st₄ hst₄ second hsecond => ?_
  refine making.ofBind (Expr.make_mem rfl ?_) fun st₅ hst₅ joined hjoined => ?_
  · simpa [Form.children] using ⟨mem_of_le hst₄ hfirst, hsecond⟩
  refine making.ofBind (Expr.make_mem rfl (List.forall_mem_nil _)) fun st₆ hst₆ other hother => ?_
  refine making.ofBind (Expr.make_mem rfl ?_) fun st₇ _ inner hinner => ?_
  · have hst : st₂ ≤ st₆ := hst₃.trans (hst₄.trans (hst₅.trans hst₆))
    simpa [Form.children] using ⟨mem_of_le hst htest, mem_of_le hst₆ hjoined, hother⟩
  refine making.ofBind (Expr.make_mem rfl (List.forall_mem_nil _)) fun st₈ hst₈ z hz => ?_
  refine making.ofBind (Expr.make_mem rfl (List.forall_mem_nil _)) fun st₉ hst₉ last hlast => ?_
  refine making.ofBind (Expr.make_mem rfl ?_) fun st₁₀ _ outer houter => ?_
  · simpa [Form.children] using ⟨mem_of_le hst₉ hz, mem_of_le (hst₈.trans hst₉) hinner, hlast⟩
  refine making.ofBind (Expr.make_mem rfl (by simpa [Form.children] using houter)) fun st₁₁ _ callee hcallee => ?_
  refine making.ofBind (Expr.make_mem rfl (List.forall_mem_nil _)) fun st₁₂ hst₁₂ arg harg => ?_
  refine Expr.make_mem rfl ?_
  simpa [Form.children] using ⟨mem_of_le hst₁₂ hcallee, harg⟩

theorem nestedChoice_wellTyped : (nestedChoice ⟨0⟩).1.WellTyped := by
  have leaf : ∀ {e : Expr}, e.HasOwnType → e.form.children = [] → e.WellTyped := fun he hc =>
    .node he (by rw [hc]; exact nofun)
  refine .node rfl (List.forall_mem_cons.2 ⟨.node rfl (List.forall_mem_singleton.2 ?_), ?_⟩)
  · refine .node ⟨rfl, .inr ⟨rfl, rfl⟩⟩ (List.forall_mem_cons.2 ⟨leaf rfl rfl, List.forall_mem_cons.2 ⟨?_, ?_⟩⟩)
    · refine .node ⟨rfl, .inr ⟨rfl, rfl⟩⟩ (List.forall_mem_cons.2 ⟨.node rfl ?_, List.forall_mem_cons.2 ⟨?_, ?_⟩⟩)
      · exact List.forall_mem_singleton.2 (leaf rfl rfl)
      · exact .node rfl (List.forall_mem_cons.2 ⟨leaf trivial rfl, List.forall_mem_singleton.2 (leaf rfl rfl)⟩)
      · exact List.forall_mem_singleton.2 (leaf trivial rfl)
    · exact List.forall_mem_singleton.2 (leaf trivial rfl)
  · exact List.forall_mem_singleton.2 (leaf trivial rfl)

theorem optimize_idempotent_nestedChoice :
    let e := (nestedChoice ⟨0⟩).1
    let s : Progress Console := ⟨(nestedChoice ⟨0⟩).2, ⟨⟨0⟩, .empty⟩, .empty⟩
    let o : Optimizer Console Registration := ⟨joiningCatalog.facts, joiner.natives, .none, .standard⟩
    (∀ p, joiningCatalog.isReadOnly p = false) ∧ joiner.natives.Steady ∧ e.Identified s.nodes ∧ e.WellTyped ∧
      ∃ r s', o.optimize e s = .ok r s' ∧ s'.tally.total = 3 ∧
        ∃ s₂, o.optimize r s' = .ok r s₂ ∧ s₂.tally.total = 0 := by
  intro e s o
  have identified : e.Identified s.nodes := Expr.identified_of_reaches nestedChoice_reaches _
  have writable : ∀ p, joiningCatalog.isReadOnly p = false := fun p => by
    unfold Catalog.isReadOnly Table.covers
    cases Generic.definition? p <;> rfl
  have well_typed : e.WellTyped := nestedChoice_wellTyped
  have hok : Run.passes (fun _ s' => s'.tally.total == 3) (o.optimize e s) = true := by decide +kernel
  obtain ⟨r, s', hrun, htotal⟩ := Run.exists_of_passes hok
  exact ⟨writable, joiner.natives_steady, identified, well_typed, r, s', hrun, by simpa using htotal,
    optimize_idempotent _ _ _ writable joiner.natives_steady e r s s' identified well_typed hrun s'⟩

end TypedTree
