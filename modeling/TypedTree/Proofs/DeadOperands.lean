import TypedTree.Proofs.Propagation

/-!
# Operands after a throw

Operands after one that throws are never evaluated, and what takes the place of the node does not depend on them. But all
sub-expressions are visited before the rule for the node looks at them, and the visit of an operand that is never evaluated
may be halted like any other. So two nodes that differ only in such operands have equal results when these visits succeed,
and when one of them is halted, so is the run (`dead_operands_irrelevant_iff`). An operand that is not well typed can bring
this about (`dead_operand_halts`).
-/

namespace TypedTree

/-! ### Forms -/

section

variable {α β σ : Type} {f : α → Run σ β} {form : Form α} {s s' : Progress σ}

theorem Run.map_ok {x : Run σ α} {a : α} (g : α → β) (h : x s = .ok a s') : (g <$> x) s = .ok (g a) s' := by
  simp [Functor.map, EStateM.map, h]

theorem Run.map_error {x : Run σ α} {halt : Halt} (g : α → β) (h : x s = .error halt s') :
    (g <$> x) s = .error halt s' := by
  simp [Functor.map, EStateM.map, h]

theorem Form.runsOperands_map (g : α → β) (form : Form α) : (form.map g).runsOperands = form.runsOperands := by
  cases form <;> rfl

theorem Form.runsOperands_mapM (f : α → Run σ β) (form : Form α) :
    Form.runsOperands <$> form.mapM f = (fun _ => form.runsOperands) <$> form.mapM f := by
  cases form <;> simp [Form.mapM, Form.runsOperands]

/-- Mapping a form succeeds when mapping the list of its sub-expressions does. -/
theorem Form.mapM_ok {bs : List β} (h : form.children.mapM f s = .ok bs s') :
    ∃ form', form.mapM f s = .ok form' s' ∧ form'.children = bs ∧ form'.runsOperands = form.runsOperands := by
  have hruns := congrFun (Form.runsOperands_mapM f form) s
  rw [← Form.children_mapM] at h
  cases hmap : form.mapM f s with
  | ok form' s₁ =>
    cases h.symm.trans (Run.map_ok _ hmap)
    rw [Run.map_ok _ hmap, Run.map_ok _ hmap] at hruns
    exact ⟨form', rfl, rfl, by simpa using hruns⟩
  | error halt s₁ => cases h.symm.trans (Run.map_error _ hmap)

theorem Form.mapM_error {halt : Halt} (h : form.children.mapM f s = .error halt s') :
    form.mapM f s = .error halt s' := by
  rw [← Form.children_mapM] at h
  cases hmap : form.mapM f s with
  | ok form' s₁ => cases h.symm.trans (Run.map_ok _ hmap)
  | error halt' s₁ =>
    cases h.symm.trans (Run.map_error _ hmap)
    rfl

theorem Facts.runsOperands_inContext (facts : Facts) (cx : Context) (form : Form α) :
    (facts.inContext cx form).runsOperands = form.runsOperands := by
  rw [← Form.runsOperands_map (·.1), facts.map_fst_inContext]

theorem mapM_of_kept {γ : Type} {ps : List (β × γ)} {g : β × γ → Run σ β} (h : ∀ p ∈ ps, g p = pure p.1) :
    ps.mapM g = pure (ps.map (·.1)) := by
  induction ps with
  | nil => rfl
  | cons p ps ih =>
    obtain ⟨hp, hps⟩ := List.forall_mem_cons.1 h
    rw [List.mapM_cons, hp, ih hps]
    simp

end

theorem Expr.rebuild_cases {e : Expr}
    (he : ∀ body clauses cleanup onFault, e.form ≠ .tryCatch body clauses cleanup onFault)
    (form : Form Expr) (nodes : Supply .node) :
    (e.rebuild form nodes).1 = e ∨ (e.rebuild form nodes).1.ty = e.ty ∧ (e.rebuild form nodes).1.form = form := by
  unfold rebuild
  split
  · exact .inl rfl
  · have hkeep : e.form.keepClauses form = pure form := by
      unfold Form.keepClauses
      split
      · next hform _ => exact absurd hform (he _ _ _ _)
      · rfl
    rw [hkeep]
    exact .inr ⟨rfl, rfl⟩

/-- A throw becomes a throw of the same exception. -/
theorem Expr.Becomes.throw {ty : Ty} {t t' : Expr} {exception : Option Expr} (h : Becomes ty t t')
    (ht : t.form = .throw exception) : t'.ty = ty ∧ t'.form = .throw exception := by
  obtain ⟨nodes, nodes', h⟩ := h
  rw [retype_eq, ht] at h
  split at h
  · next hty =>
    cases h
    exact ⟨by simpa using hty, ht⟩
  · cases h
    exact ⟨rfl, rfl⟩

/-- Throws of the same node, of one type, are equal. -/
theorem Expr.equals_of_throw {r r' x : Expr} (hty : r.ty = r'.ty) (hr : r.form = .throw (some x))
    (hr' : r'.form = .throw (some x)) : r.equals r' = true := by
  have hx : x.equals x = true := by
    rw [equals_eq]
    simp [same]
  rw [equals_eq, hr, hr', hty]
  simp [Form.map, Form.agree, agreeOption, hx]

/-! ### Visits -/

namespace Optimizer

variable {σ κ : Type} {o : Optimizer σ κ} {e t x : Expr} {cx : Context}

/-- A visit without hooks: the sub-expressions, the rule, and the check that it kept the type. -/
theorem visit_eq (ho : o.hooks = .none) (e : Expr) (cx : Context) : o.visit e cx = (do
    let form ← (o.facts.inContext cx e.form).mapM fun p => o.visit p.1 p.2
    let node ← e.rebuild form
    let r ← o.rule o.visitMade node cx
    if r.ty != e.ty then throw (.typeChanged e.ty r.ty) else return r) := by
  have hvisit : o.visit = o.pass o.visitMade := by
    unfold visit
    rw [ho]
    rfl
  have hadmits : (liftM (Hooks.none.admits e : Effect σ Bool) : Run σ Bool) = pure true := rfl
  have hbefore : (liftM (Hooks.none.before e : Effect σ Expr) : Run σ Expr) = pure e := rfl
  have hafter : ∀ r, (liftM (Hooks.none.after r : Effect σ Expr) : Run σ Expr) = pure r := fun _ => rfl
  rw [hvisit, pass_eq, ho, hadmits, hbefore]
  simp only [pure_bind, if_true, Expr.same, beq_self_eq_true, finish, ho, hafter, ite_self]

/-- A node is kept when its sub-expressions are and there is no rule for it. -/
theorem visit_of_kept (ho : o.hooks = .none)
    (hchildren : (o.facts.inContext cx e.form).mapM (fun p => o.visit p.1 p.2) = pure e.form)
    (hrule : o.rule o.visitMade e cx = pure e) : o.visit e cx = pure e := by
  have hrebuild : (liftM (e.rebuild e.form) : Run σ Expr) = pure e := by
    rw [Expr.rebuild_self rfl]
    rfl
  rw [visit_eq ho, hchildren]
  simp [hrebuild, hrule]

theorem visit_constant (ho : o.hooks = .none) {value : Value} (h : e.form = .constant value) : o.visit e cx = pure e := by
  refine visit_of_kept ho ?_ ?_
  · rw [h]
    rfl
  · rw [rule, h]

/-- A throw of a constant is kept. -/
theorem visit_throw (ho : o.hooks = .none) {value : Value} (ht : t.form = .throw (some x))
    (hx : x.form = .constant value) : o.visit t cx = pure t := by
  refine visit_of_kept ho ?_ ?_
  · rw [ht]
    simp [Facts.inContext, Form.map, Form.mapM, visit_constant ho hx]
  · rw [rule, ht]

/-- The visits of the sub-expressions of a tree, from the one at position `k` on. -/
def visitRest (o : Optimizer σ κ) (e : Expr) (k : Nat) : Run σ (List Expr) :=
  ((o.facts.inContext .plain e.form).children.drop k).mapM fun p => o.visit p.1 p.2

end Optimizer

/-! ### A throw after constants -/

/-- **Dead operands**: the node evaluates the constants `pre` and then `t`, which throws the constant `x`, so that `post` is
never evaluated. -/
structure Expr.StopsAt (e : Expr) (pre : List Expr) (t x : Expr) (post : List Expr) : Prop where
  runs : e.form.runsOperands = true
  children : e.form.children = pre ++ t :: post
  constants : ∀ c ∈ pre, ∃ value, c.form = .constant value
  throws : t.form = .throw (some x)
  thrown : ∃ value, x.form = .constant value

namespace Optimizer

variable {σ κ : Type} {o : Optimizer σ κ} {e t x : Expr} {pre post : List Expr} {s s₁ : Progress σ}

/-- The visits up to the throw change nothing, so that the visits of the operands are those of the dead ones. -/
theorem visit_operands (ho : o.hooks = .none) (h : e.StopsAt pre t x post) :
    (o.facts.inContext .plain e.form).children.mapM (fun p => o.visit p.1 p.2) =
      (fun ds => pre ++ t :: ds) <$> o.visitRest e (pre.length + 1) := by
  let operands := (o.facts.inContext .plain e.form).children
  have hfst : operands.map (·.1) = pre ++ t :: post := by
    rw [← Form.children_map, o.facts.map_fst_inContext, h.children]
  have hfirst : (operands.take (pre.length + 1)).map (·.1) = pre ++ [t] := by
    rw [List.map_take, hfst, show pre ++ t :: post = (pre ++ [t]) ++ post by simp]
    exact List.take_left' (by simp)
  have hkept : ∀ p ∈ operands.take (pre.length + 1), o.visit p.1 p.2 = pure p.1 := by
    intro p hp
    have hmem : p.1 ∈ pre ++ [t] := hfirst ▸ List.mem_map_of_mem hp
    rcases List.mem_append.1 hmem with hp | hp
    · obtain ⟨value, hc⟩ := h.constants _ hp
      exact visit_constant ho hc
    · obtain ⟨value, hx⟩ := h.thrown
      rw [List.mem_singleton.1 hp]
      exact visit_throw ho h.throws hx
  have happend : (fun ds => pre ++ t :: ds) = ((pre ++ [t]) ++ ·) := by
    funext ds
    simp
  calc operands.mapM (fun p => o.visit p.1 p.2)
      = (operands.take (pre.length + 1) ++ operands.drop (pre.length + 1)).mapM (fun p => o.visit p.1 p.2) := by
        rw [List.take_append_drop]
    _ = ((pre ++ [t]) ++ ·) <$> (operands.drop (pre.length + 1)).mapM (fun p => o.visit p.1 p.2) := by
        rw [List.mapM_append, mapM_of_kept hkept, hfirst]
        simp only [pure_bind, bind_pure_comp]
    _ = (fun ds => pre ++ t :: ds) <$> o.visitRest e (pre.length + 1) := by rw [happend, visitRest]

/-- The throw takes the place of the node alone, because constants are pure. -/
theorem rule_ends_of_stop {catalog : Catalog} (hfacts : o.facts = catalog.facts) (h : e.StopsAt pre t x post)
    (s : Progress σ) : (o.rule o.visitMade e .plain).Ends s (fun r _ => r.ty = e.ty ∧ r.form = .throw (some x))
      (fun _ => False) := by
  have hpure : pre.filter (!o.facts.isPure ·) = [] := by
    rw [List.filter_eq_nil_iff]
    intro c hc
    obtain ⟨value, hform⟩ := h.constants c hc
    have hpure : catalog.facts.isPure c = true := Expr.IsLeaf.isPure (c := catalog) (.constant hform)
    simp [hfacts, hpure]
  have hreturns : ∀ c ∈ pre, o.facts.alwaysThrows c = false := by
    intro c hc
    obtain ⟨value, hform⟩ := h.constants c hc
    rw [hfacts, ← Bool.not_eq_true]
    intro hthrows
    obtain ⟨_, hthrow⟩ := Catalog.throw_of_alwaysThrows hthrows
    cases hform.symm.trans hthrow
  have hthrows : o.facts.alwaysThrows t = true := by
    rw [hfacts]
    show t.isThrow = true
    rw [Expr.isThrow, h.throws]
  have hends : (o.rule o.visitMade e .plain).Ends s
      (fun r _ => Expr.RunsThen e.ty (pre.filter (!o.facts.isPure ·)) t r) (fun _ => ∀ exception, t.form ≠ .throw exception) :=
    rule_ends_of_throws (hfacts ▸ catalog.literalsPlain) h.runs h.children hreturns hthrows s
  rw [hpure] at hends
  cases hends with
  | result hrun hr =>
    obtain ⟨t', hbecomes, ⟨_, rfl⟩ | ⟨hne, _⟩⟩ := hr
    · exact .result hrun (hbecomes.throw h.throws)
    · exact absurd rfl hne
  | halted _ hne => exact absurd h.throws (hne _)

/-- When the visits of the dead operands succeed, the throw takes the place of the node. -/
theorem visit_ends_of_throw {catalog : Catalog} (ho : o.hooks = .none) (hfacts : o.facts = catalog.facts)
    (h : e.StopsAt pre t x post) {ds : List Expr} (hrest : o.visitRest e (pre.length + 1) s = .ok ds s₁) :
    (o.visit e .plain).Ends s (fun r _ => r.ty = e.ty ∧ r.form = .throw (some x)) (fun _ => False) := by
  have hoperands := (congrFun (visit_operands ho h) s).trans (Run.map_ok _ hrest)
  obtain ⟨form, hmap, hchildren, hruns⟩ := Form.mapM_ok hoperands
  rw [o.facts.runsOperands_inContext, h.runs] at hruns
  rw [visit_eq ho]
  refine Run.ends_bind (P := fun form' _ => form = form') (.result hmap rfl) ?_
  rintro _ s₂ rfl
  refine Run.ends_bind (P := fun node _ => node.ty = e.ty ∧ ∃ post', node.StopsAt pre t x post') ?_ ?_
  · refine Run.ends_fresh ?_
    have htry : ∀ body clauses cleanup onFault, e.form ≠ .tryCatch body clauses cleanup onFault := by
      intro body clauses cleanup onFault htry
      cases htry ▸ h.runs
    rcases Expr.rebuild_cases htry form s₂.nodes with hnode | ⟨hty, hform⟩
    · exact ⟨by rw [hnode], post, by rw [hnode]; exact h⟩
    · exact ⟨hty, ds, by rw [hform]; exact hruns, by rw [hform]; exact hchildren, h.constants, h.throws, h.thrown⟩
  -- The rule may be given a new node, with the results of the visits as dead operands.
  rintro node s₃ ⟨hty, post', hnode⟩
  refine Run.ends_bind (rule_ends_of_stop hfacts hnode s₃) ?_
  rintro r s₄ ⟨hrty, hrform⟩
  rw [hty] at hrty
  simp only [hrty, bne_self_eq_false, Bool.false_eq_true, if_false]
  exact Run.ends_pure ⟨hrty, hrform⟩

theorem visit_error_of_throw (ho : o.hooks = .none) (h : e.StopsAt pre t x post) {halt : Halt}
    (hrest : o.visitRest e (pre.length + 1) s = .error halt s₁) : o.visit e .plain s = .error halt s₁ := by
  have hoperands := (congrFun (visit_operands ho h) s).trans (Run.map_error _ hrest)
  rw [visit_eq ho]
  simp [bind, EStateM.bind, Form.mapM_error hoperands]

/-- A run on the node succeeds with the visits of the dead operands. -/
theorem optimize_ok_of_stop {catalog : Catalog} (ho : o.hooks = .none) (hfacts : o.facts = catalog.facts)
    (active : o.settings.level ≠ .none) (h : e.StopsAt pre t x post) {ds : List Expr}
    (hrest : o.visitRest e (pre.length + 1) (starting e s) = .ok ds s₁) :
    ∃ r s₂, o.optimize e s = .ok r s₂ ∧ r.ty = e.ty ∧ r.form = .throw (some x) := by
  cases visit_ends_of_throw ho hfacts h hrest with
  | @result r s₂ hrun hr =>
    refine ⟨r, counted r s₂, ?_, hr⟩
    rw [optimize_run, if_neg (by simpa using active), hrun]
  | halted _ hfalse => exact hfalse.elim

/-- A run on the node is halted with the visits of the dead operands. -/
theorem optimize_error_of_stop (ho : o.hooks = .none) (active : o.settings.level ≠ .none) (h : e.StopsAt pre t x post)
    {halt : Halt} (hrest : o.visitRest e (pre.length + 1) (starting e s) = .error halt s₁) :
    o.optimize e s = .error halt s₁ := by
  rw [optimize_run, if_neg (by simpa using active), visit_error_of_throw ho h hrest]

theorem visitRest_ok_of_optimize (ho : o.hooks = .none) (active : o.settings.level ≠ .none) (h : e.StopsAt pre t x post)
    {r : Expr} (hrun : o.optimize e s = .ok r s₁) :
    ∃ ds s₂, o.visitRest e (pre.length + 1) (starting e s) = .ok ds s₂ := by
  cases hrest : o.visitRest e (pre.length + 1) (starting e s) with
  | ok ds s₂ => exact ⟨ds, s₂, rfl⟩
  | error halt s₂ => cases hrun.symm.trans (optimize_error_of_stop ho active h hrest)

end Optimizer

/-- **Dead operands**: let two nodes of one type evaluate the same constants and then the same throw of a constant, whatever
operands follow. Without hooks, and unless nothing is to be done, the runs on the two nodes give equal results exactly when
neither is halted in the visits of the operands that follow. -/
theorem dead_operands_irrelevant_iff {σ κ : Type} (catalog : Catalog) (evaluators : Evaluators σ κ) (settings : Settings)
    (active : settings.level ≠ .none) (e e' t x : Expr) (pre post post' : List Expr) (stops : e.StopsAt pre t x post)
    (stops' : e'.StopsAt pre t x post') (hty : e.ty = e'.ty) (s s' : Progress σ) :
    let o : Optimizer σ κ := ⟨catalog.facts, evaluators, .none, settings⟩
    (∃ r s₁ r' s₁', o.optimize e s = .ok r s₁ ∧ o.optimize e' s' = .ok r' s₁' ∧ r.equals r' = true) ↔
      (∃ ds s₁, o.visitRest e (pre.length + 1) (Optimizer.starting e s) = .ok ds s₁) ∧
        ∃ ds s₁, o.visitRest e' (pre.length + 1) (Optimizer.starting e' s') = .ok ds s₁ := by
  intro o
  constructor
  · rintro ⟨r, s₁, r', s₁', hrun, hrun', _⟩
    exact ⟨Optimizer.visitRest_ok_of_optimize rfl active stops hrun,
      Optimizer.visitRest_ok_of_optimize rfl active stops' hrun'⟩
  · rintro ⟨⟨ds, s₁, hrest⟩, ⟨ds', s₁', hrest'⟩⟩
    obtain ⟨r, s₂, hrun, hrty, hr⟩ := Optimizer.optimize_ok_of_stop (o := o) rfl rfl active stops hrest
    obtain ⟨r', s₂', hrun', hrty', hr'⟩ := Optimizer.optimize_ok_of_stop (o := o) rfl rfl active stops' hrest'
    exact ⟨r, s₂, r', s₂', hrun, hrun', Expr.equals_of_throw (hrty.trans (hty.trans hrty'.symm)) hr hr'⟩

/-! ### An operand that is not well typed -/

/-- An array of a throw and of items that are never evaluated. -/
def stopBefore (dead : List Expr) : Expr := ⟨.made 6, .array .string 1, .newArray .string .items (stop :: dead)⟩

theorem stopBefore_stopsAt (dead : List Expr) :
    (stopBefore dead).StopsAt [] stop ⟨.made 4, .exception, .constant (.exception stopped)⟩ dead :=
  ⟨rfl, rfl, List.forall_mem_nil _, rfl, _, rfl⟩

/-- A choice between integers that is said to be a text. -/
def mistypedText : Expr :=
  ⟨.made 9, .string, .conditional (.boolean true) ⟨.made 7, .int, .constant (.int 20)⟩ ⟨.made 8, .int, .constant (.int 30)⟩⟩

theorem dead_operands_irrelevant_iff_logged :
    let s : Progress Console := ⟨⟨10⟩, ⟨⟨1⟩, .empty⟩, .empty⟩
    ∃ r s₁ r' s₁', Optimizer.bare.optimize (stopBefore [joinedVars]) s = .ok r s₁ ∧
      Optimizer.bare.optimize (stopBefore [loggedText, stop]) s = .ok r' s₁' ∧ r.equals r' = true := by
  intro s
  have active : Settings.standard.level ≠ .none := by decide
  have hok : Run.passes (fun _ _ => true) (Optimizer.bare.optimize (stopBefore [joinedVars]) s) = true := by
    decide +kernel
  have hok' : Run.passes (fun _ _ => true) (Optimizer.bare.optimize (stopBefore [loggedText, stop]) s) = true := by
    decide +kernel
  obtain ⟨r, s₁, hrun, _⟩ := Run.exists_of_passes hok
  obtain ⟨r', s₁', hrun', _⟩ := Run.exists_of_passes hok'
  refine (dead_operands_irrelevant_iff .empty Registry.empty.natives .standard active _ _ _ _ _ _ _
    (stopBefore_stopsAt [joinedVars]) (stopBefore_stopsAt [loggedText, stop]) rfl s s).2 ⟨?_, ?_⟩
  · exact Optimizer.visitRest_ok_of_optimize rfl active (stopBefore_stopsAt [joinedVars]) hrun
  · exact Optimizer.visitRest_ok_of_optimize rfl active (stopBefore_stopsAt [loggedText, stop]) hrun'

/-- An operand that is not well typed and never evaluated makes the run fail. -/
theorem dead_operand_halts :
    let s : Progress Console := ⟨⟨10⟩, ⟨⟨1⟩, .empty⟩, .empty⟩
    (∃ r s', Optimizer.bare.optimize (stopBefore []) s = .ok r s') ∧
      ∀ r s', Optimizer.bare.optimize (stopBefore [mistypedText]) s ≠ .ok r s' := by
  intro s
  have hok : Run.passes (fun _ _ => true) (Optimizer.bare.optimize (stopBefore []) s) = true := by decide +kernel
  have hfails : Run.passes (fun _ _ => true) (Optimizer.bare.optimize (stopBefore [mistypedText]) s) = false := by
    decide +kernel
  refine ⟨?_, fun r s' hrun => ?_⟩
  · obtain ⟨r, s', hrun, _⟩ := Run.exists_of_passes hok
    exact ⟨r, s', hrun⟩
  · rw [hrun] at hfails
    cases hfails

end TypedTree
