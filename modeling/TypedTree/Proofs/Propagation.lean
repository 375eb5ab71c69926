import TypedTree.Proofs.Faults
import TypedTree.Proofs.OperandScan
import TypedTree.Proofs.Purity

/-!
# Operands that throw

A node whose operands are evaluated before it does anything else is replaced when one of them always throws: by the throw,
after the operands before it that may have side effects (`Optimizer.rule_ends_of_throws`). Here is what this does to side
effects, whatever the operands do.

A `Course` is what an evaluation does, side effects first and then a value or an exception, and a `Trial` is an operand with
a course that the facts allow: what is pure has no side effects, though it may raise an exception, and what always throws
raises one. Operands are evaluated in turn until one raises an exception (`Trial.inTurn`). Then the replacement raises an
exception just as the node does, and no side effect is lost. But a pure operand that raises an exception is dropped, and with
it the reason why later operands were not evaluated: there are new side effects exactly when some of those had any
(`propagated_effects_iff`, `Trial.Spurious`).
-/

namespace TypedTree

/-! ### The rule -/

/-- The node evaluates all its sub-expressions, from left to right, before it does anything else. -/
def Form.runsOperands {α : Type} : Form α → Bool
  | .call .. | .access .. | .new .. | .newArray .. | .invoke .. => true
  | .index _ _ _ assigned => !assigned
  | _ => false

/-- Function literals are known to be pure and not to throw when they are evaluated. -/
def Facts.LiteralsPlain (facts : Facts) : Prop :=
  ∀ e params body, e.form = .lambda params body → facts.isPure e = true ∧ facts.alwaysThrows e = false

theorem Catalog.literalsPlain (c : Catalog) : c.facts.LiteralsPlain := by
  intro e params body h
  refine ⟨isPure_of_lambda h, ?_⟩
  rw [← Bool.not_eq_true]
  intro hthrows
  obtain ⟨exception, hform⟩ := throw_of_alwaysThrows hthrows
  cases h.symm.trans hform

section

variable {facts : Facts} {pre post : List Expr} {t : Expr}

/-- The operands of a node are its sub-expressions, without a function literal that is invoked. -/
theorem Facts.LiteralsPlain.operands (literals : facts.LiteralsPlain) {form : Form Expr} (hform : form.runsOperands = true)
    (hchildren : form.children = pre ++ t :: post) (ht : facts.alwaysThrows t = true) :
    ∃ pre', pre'.Sublist pre ∧ form.operands = pre' ++ t :: post ∧
      pre'.filter (!facts.isPure ·) = pre.filter (!facts.isPure ·) := by
  cases form with
  | invoke callee args =>
    rw [Form.operands]
    split
    · next params body hcallee =>
      obtain ⟨hpure, hthrows⟩ := literals callee params body hcallee
      cases pre with
      | nil =>
        cases hchildren
        cases ht.symm.trans hthrows
      | cons p pre =>
        cases hchildren
        exact ⟨pre, List.sublist_cons_self _ _, rfl, by simp [hpure]⟩
    · exact ⟨pre, .refl _, hchildren, rfl⟩
  | call | access | new | newArray | index => exact ⟨pre, .refl _, hchildren, rfl⟩
  | _ => cases hform

namespace Operands

/-- What is found when an operand is the first that throws. -/
theorem analyze_of_first (hpre : ∀ e ∈ pre, facts.alwaysThrows e = false) (ht : facts.alwaysThrows t = true)
    (post : List Expr) :
    (analyze facts (pre ++ t :: post)).thrower = some (pre.length, t) ∧
      (analyze facts (pre ++ t :: post)).allPure = pre.all facts.isPure := by
  rw [analyze_throws hpre ht]
  simp [foldl_push_allPure, none]

end Operands

end

namespace Expr

/-- `t'` is what `t` becomes when it is given the type `ty`. -/
def Becomes (ty : Ty) (t t' : Expr) : Prop := ∃ nodes nodes', t.retype ty nodes = .ok (t', nodes')

/-- `r` evaluates the given expressions in order and then `t`, of which it has the value, as one of type `ty`. -/
def RunsThen (ty : Ty) (es : List Expr) (t r : Expr) : Prop :=
  ∃ t', Becomes ty t t' ∧ (es = [] ∧ r = t' ∨ es ≠ [] ∧ r.form = .block [] (es ++ [t']))

end Expr

namespace Optimizer

variable {σ κ : Type} {o : Optimizer σ κ} {again : Expr → Context → Run σ Expr} {node t : Expr} {cx : Context}
  {pre post : List Expr}

/-- When an operand always throws, nothing else is looked at. -/
theorem rule_of_throws (hform : node.form.runsOperands = true)
    (h : (Operands.analyze o.facts node.form.operands).throws = true) :
    o.rule again node cx =
      o.propagateThrow node node.form.operands (Operands.analyze o.facts node.form.operands) := by
  unfold rule
  cases hf : node.form with
  | call receiver method args =>
    rw [hf] at h
    exact if_pos h
  | access receiver member =>
    rw [hf] at h
    simp only [useMember, List.append_nil]
    exact if_pos h
  | new constructor args =>
    rw [hf] at h
    exact if_pos h
  | newArray element source items =>
    rw [hf] at h
    exact if_pos h
  | index receiver indexer args assigned =>
    rw [hf] at h hform
    cases assigned with
    | true => cases hform
    | false => exact if_pos h
  | invoke callee args =>
    rw [hf] at h
    show o.invoke again node callee args cx = _
    unfold invoke
    unfold Form.operands at h ⊢
    cases hcallee : callee.form with
    | lambda params body =>
      simp only [hcallee] at h ⊢
      exact if_pos h
    | _ =>
      simp only [hcallee] at h ⊢
      exact if_pos h
  | _ => rw [hf] at hform; cases hform

theorem ends_recorded {x : Run σ Expr} {k : Reduction} {P : Expr → Prop} {E : Halt → Prop} {s : Progress σ}
    (h : x.Ends s (fun r _ => P r) E) : (do let r ← x; record k; return r : Run σ Expr).Ends s (fun r _ => P r) E :=
  Run.ends_bind h fun _ _ hr => Run.ends_bind (P := fun _ _ => True) (Run.ends_record trivial) fun _ _ _ => Run.ends_pure hr

/-- The throw is put in the place of the node, after the operands before it that may have side effects. -/
theorem propagateThrow_ends (hpre : ∀ e ∈ pre, o.facts.alwaysThrows e = false) (ht : o.facts.alwaysThrows t = true)
    (s : Progress σ) :
    (o.propagateThrow node (pre ++ t :: post) (Operands.analyze o.facts (pre ++ t :: post))).Ends s
      (fun r _ => Expr.RunsThen node.ty (pre.filter (!o.facts.isPure ·)) t r)
      (fun halt => ∃ fault nodes, halt = .fault fault ∧ t.retype node.ty nodes = .error fault) := by
  obtain ⟨hthrower, hpure⟩ := Operands.analyze_of_first hpre ht post
  unfold propagateThrow
  simp only [hthrower, hpure, List.take_left]
  refine Run.ends_bind (Run.ends_fallible (Q := fun t' _ => Expr.Becomes node.ty t t') ?_ ?_) fun t' s₁ hbecomes => ?_
  · exact fun t' nodes h => ⟨_, nodes, h⟩
  · exact fun fault h => ⟨fault, _, rfl, h⟩
  split
  · next hall =>
    have hnone : pre.filter (!o.facts.isPure ·) = [] := by simpa using hall
    exact ends_recorded (Run.ends_pure ⟨t', hbecomes, .inl ⟨hnone, rfl⟩⟩)
  · next hall =>
    have hsome : pre.filter (!o.facts.isPure ·) ≠ [] := by simpa using hall
    exact ends_recorded (Run.ends_fresh ⟨t', hbecomes, .inr ⟨hsome, rfl⟩⟩)

/-- A throw can be given any type, so that it always takes the place of the node. -/
theorem rule_ends_of_throws (literals : o.facts.LiteralsPlain) (hform : node.form.runsOperands = true)
    (hchildren : node.form.children = pre ++ t :: post) (hpre : ∀ e ∈ pre, o.facts.alwaysThrows e = false)
    (ht : o.facts.alwaysThrows t = true) (s : Progress σ) :
    (o.rule again node cx).Ends s (fun r _ => Expr.RunsThen node.ty (pre.filter (!o.facts.isPure ·)) t r)
      (fun _ => ∀ exception, t.form ≠ .throw exception) := by
  obtain ⟨pre', hsub, hoperands, hkept⟩ := literals.operands hform hchildren ht
  have hpre' : ∀ e ∈ pre', o.facts.alwaysThrows e = false := fun e he => hpre e (hsub.subset he)
  have hthrows : (Operands.analyze o.facts node.form.operands).throws = true := by
    rw [hoperands, Operands.throws, (Operands.analyze_of_first hpre' ht post).1]
    rfl
  rw [rule_of_throws hform hthrows, hoperands, ← hkept]
  refine (propagateThrow_ends hpre' ht s).imp_halt ?_
  rintro _ ⟨fault, nodes, _, hfault⟩ exception hthrow
  exact Expr.retype_failsAs_of_throw (F := fun _ => False) hthrow nodes fault hfault

end Optimizer

/-! ### Side effects -/

/-- What an evaluation does: its side effects in order, and then a result or an exception. -/
structure Course (ε α : Type) where
  /-- The side effects. -/
  effects : List ε
  /-- The result, or the exception that is raised. -/
  ending : Except Exception α

/-- The evaluation ends in an exception. -/
def Course.raises {ε α : Type} (c : Course ε α) : Bool := !c.ending.isOk

/-- An operand and what its evaluation does. -/
structure Trial (ε : Type) where
  /-- The operand. -/
  operand : Expr
  /-- What its evaluation does. -/
  course : Course ε Value

namespace Trial

variable {ε : Type} {facts : Facts} {p t : Trial ε} {ps pre : List (Trial ε)}

/-- **What the facts promise**: a pure operand has no side effects, and one that always throws ends in an exception. A pure
operand may do so, too. -/
structure Respects (facts : Facts) (p : Trial ε) : Prop where
  pure : facts.isPure p.operand = true → p.course.effects = []
  throws : facts.alwaysThrows p.operand = true → p.course.raises = true

/-- Operands are evaluated from left to right until one raises an exception. -/
def inTurn : List (Trial ε) → Course ε (List Value)
  | [] => ⟨[], .ok []⟩
  | p :: ps =>
    match p.course.ending with
    | .error e => ⟨p.course.effects, .error e⟩
    | .ok value => ⟨p.course.effects ++ (inTurn ps).effects, (value :: ·) <$> (inTurn ps).ending⟩

/-- What is left of the operands before a throw. -/
def kept (facts : Facts) (ps : List (Trial ε)) : List (Trial ε) := ps.filter (!facts.isPure ·.operand)

theorem inTurn_of_raises (h : p.course.raises = true) :
    (inTurn (p :: ps)).effects = p.course.effects ∧ (inTurn (p :: ps)).raises = true := by
  unfold inTurn
  cases hending : p.course.ending with
  | error e => exact ⟨rfl, rfl⟩
  | ok value => simp [Course.raises, hending, Except.isOk, Except.toBool] at h

theorem inTurn_of_returns (h : p.course.raises = false) :
    (inTurn (p :: ps)).effects = p.course.effects ++ (inTurn ps).effects ∧
      (inTurn (p :: ps)).raises = (inTurn ps).raises := by
  rw [inTurn]
  cases hending : p.course.ending with
  | error e => simp [Course.raises, hending, Except.isOk, Except.toBool] at h
  | ok value =>
    refine ⟨rfl, ?_⟩
    simp only [Course.raises]
    cases (inTurn ps).ending <;> rfl

/-- Operands of which one raises an exception end in an exception. -/
theorem raises_inTurn (hp : p ∈ ps) (h : p.course.raises = true) : (inTurn ps).raises = true := by
  induction ps with
  | nil => cases hp
  | cons q ps ih =>
    cases hq : q.course.raises with
    | true => exact (inTurn_of_raises hq).2
    | false =>
      rw [(inTurn_of_returns hq).2]
      rcases List.mem_cons.1 hp with rfl | hp
      · cases h.symm.trans hq
      · exact ih hp

/-- **Spurious side effects**: a pure operand is the first that raises an exception, and what is kept of the operands after
it, the throw included, has side effects. -/
inductive Spurious (facts : Facts) (t : Trial ε) : List (Trial ε) → Prop where
  /-- The first operand raises an exception. -/
  | here {p : Trial ε} {ps : List (Trial ε)} : facts.isPure p.operand = true → p.course.raises = true →
      (inTurn (kept facts ps ++ [t])).effects ≠ [] → Spurious facts t (p :: ps)
  /-- A later operand does. -/
  | later {p : Trial ε} {ps : List (Trial ε)} : p.course.raises = false → Spurious facts t ps → Spurious facts t (p :: ps)

theorem spurious_of_raises (h : p.course.raises = true) : Spurious facts t (p :: ps) ↔
    facts.isPure p.operand = true ∧ (inTurn (kept facts ps ++ [t])).effects ≠ [] := by
  refine ⟨fun hs => ?_, fun hs => .here hs.1 h hs.2⟩
  cases hs with
  | here hpure _ heffects => exact ⟨hpure, heffects⟩
  | later hreturns => cases h.symm.trans hreturns

theorem spurious_of_returns (h : p.course.raises = false) : Spurious facts t (p :: ps) ↔ Spurious facts t ps := by
  refine ⟨fun hs => ?_, .later h⟩
  cases hs with
  | here _ hraises => cases h.symm.trans hraises
  | later _ hs => exact hs

/-- **Dropped operands**: when the pure operands before a throw are dropped, no side effect is lost, and there are new ones
exactly when some are spurious. The induction is on the operands before the throw. -/
theorem effects_kept (hpre : ∀ p ∈ pre, p.Respects facts) (ht : t.course.raises = true) (post : List (Trial ε)) :
    (inTurn (pre ++ t :: post)).effects <+: (inTurn (kept facts pre ++ [t])).effects ∧
      ((inTurn (kept facts pre ++ [t])).effects = (inTurn (pre ++ t :: post)).effects ↔ ¬ Spurious facts t pre) := by
  induction pre with
  | nil =>
    have heq : (inTurn (kept facts [] ++ [t])).effects = (inTurn ([] ++ t :: post)).effects :=
      (inTurn_of_raises ht).1.trans (inTurn_of_raises ht).1.symm
    refine ⟨heq ▸ List.prefix_rfl, iff_of_true heq fun h => ?_⟩
    cases h
  | cons p pre ih =>
    obtain ⟨hp, hpre⟩ := List.forall_mem_cons.1 hpre
    obtain ⟨hinitial, hiff⟩ := ih hpre
    rw [List.cons_append]
    cases hpure : facts.isPure p.operand with
    | true =>
      have hkept : kept facts (p :: pre) = kept facts pre := by simp [kept, hpure]
      have hnone : p.course.effects = [] := hp.pure hpure
      rw [hkept]
      cases hraises : p.course.raises with
      -- The operand is dropped with its exception, and the replacement goes on where the node stops.
      | true =>
        rw [(inTurn_of_raises hraises).1, hnone, spurious_of_raises hraises]
        exact ⟨List.nil_prefix, by simp [hpure]⟩
      | false =>
        rw [(inTurn_of_returns hraises).1, hnone, List.nil_append, spurious_of_returns hraises]
        exact ⟨hinitial, hiff⟩
    | false =>
      have hkept : kept facts (p :: pre) = p :: kept facts pre := by simp [kept, hpure]
      rw [hkept, List.cons_append]
      cases hraises : p.course.raises with
      | true =>
        rw [(inTurn_of_raises hraises).1, (inTurn_of_raises hraises).1, spurious_of_raises hraises]
        exact ⟨List.prefix_rfl, by simp [hpure]⟩
      | false =>
        rw [(inTurn_of_returns hraises).1, (inTurn_of_returns hraises).1, spurious_of_returns hraises,
          List.append_right_inj]
        exact ⟨(List.prefix_append_right_inj _).2 hinitial, hiff⟩

theorem map_operand_kept (facts : Facts) (ps : List (Trial ε)) :
    (kept facts ps).map operand = (ps.map operand).filter (!facts.isPure ·) := by
  rw [kept, List.filter_map]
  rfl

end Trial

/-- **Throws that are propagated**: in a node that evaluates its operands first, let `t` be the first operand that is known to
throw. Then the rule puts in the place of the node what is kept of the operands before `t`, followed by `t`. Whatever the
operands do, as far as the facts allow, both the node and its replacement raise an exception, and the side effects of the
node are the first of those of the replacement. They are all of them, unless a pure operand is the first to raise an
exception and what is kept after it has side effects. -/
theorem propagated_effects_iff {σ κ ε : Type} (o : Optimizer σ κ) (again : Expr → Context → Run σ Expr) (node : Expr)
    (cx : Context) (s : Progress σ) (literals : o.facts.LiteralsPlain) (hform : node.form.runsOperands = true)
    (pre post : List (Trial ε)) (t : Trial ε) (hchildren : node.form.children = (pre ++ t :: post).map Trial.operand)
    (hpre : ∀ p ∈ pre, o.facts.alwaysThrows p.operand = false) (ht : o.facts.alwaysThrows t.operand = true)
    (respects : ∀ p ∈ pre ++ [t], p.Respects o.facts) :
    let original := Trial.inTurn (pre ++ t :: post)
    let kept := Trial.kept o.facts pre
    let replacement := Trial.inTurn (kept ++ [t])
    (o.rule again node cx).Ends s (fun r _ => Expr.RunsThen node.ty (kept.map Trial.operand) t.operand r)
        (fun _ => ∀ exception, t.operand.form ≠ .throw exception) ∧
      original.raises = true ∧ replacement.raises = true ∧ original.effects <+: replacement.effects ∧
      (replacement.effects = original.effects ↔ ¬ Trial.Spurious o.facts t pre) := by
  intro original kept replacement
  have hraises : t.course.raises = true := (respects t (by simp)).throws ht
  have hrespects : ∀ p ∈ pre, p.Respects o.facts := fun p hp => respects p (by simp [hp])
  obtain ⟨hinitial, hiff⟩ := Trial.effects_kept hrespects hraises post
  refine ⟨?_, Trial.raises_inTurn (p := t) (by simp) hraises, Trial.raises_inTurn (p := t) (by simp) hraises, hinitial, hiff⟩
  rw [Trial.map_operand_kept]
  rw [List.map_append, List.map_cons] at hchildren
  refine Optimizer.rule_ends_of_throws literals hform hchildren (fun e he => ?_) ht s
  obtain ⟨p, hp, rfl⟩ := List.mem_map.1 he
  exact hpre p hp

/-! ### A side effect after a pure operand that raises -/

/-- Two texts that are joined, which has no side effect but may raise an exception. -/
def joinedVars : Expr :=
  ⟨.made 2, .string, .call none joining [⟨.made 0, .string, .var ⟨0, "x", .string⟩⟩, ⟨.made 1, .string, .var ⟨1, "y", .string⟩⟩]⟩

/-- A call of a method of which nothing is known. -/
def loggedText : Expr := ⟨.made 3, .string, .call none ⟨"log", .string, .method, true, [], .string, none⟩ []⟩

/-- The exception that `stop` throws. -/
def stopped : Exception := ⟨0, .exception, "stop", none⟩

/-- A throw. -/
def stop : Expr := ⟨.made 5, .string, .throw (some ⟨.made 4, .exception, .constant (.exception stopped)⟩)⟩

/-- An array of the three. -/
def stoppedArray : Expr := ⟨.made 6, .array .string 1, .newArray .string .items [joinedVars, loggedText, stop]⟩

/-- The texts are joined, and the exception is raised after one side effect. -/
theorem propagated_effects_iff_stoppedArray :
    let o : Optimizer Console Registration := ⟨joiningCatalog.facts, joiner.natives, .none, .standard⟩
    let s : Progress Console := ⟨⟨7⟩, ⟨⟨1⟩, .empty⟩, .empty⟩
    let joins : Trial String := ⟨joinedVars, [], .ok (.string "ab")⟩
    let logs : Trial String := ⟨loggedText, ["log"], .ok (.string "c")⟩
    let throws : Trial String := ⟨stop, [], .error stopped⟩
    (o.rule o.visitMade stoppedArray .plain).Ends s (fun r _ => Expr.RunsThen stoppedArray.ty [loggedText] stop r)
        (fun _ => ∀ exception, stop.form ≠ .throw exception) ∧
      (Trial.inTurn [joins, logs, throws]).effects = ["log"] ∧ (Trial.inTurn [logs, throws]).effects = ["log"] ∧
      ¬ Trial.Spurious o.facts throws [joins, logs] := by
  intro o s joins logs throws
  have hpre : ∀ p ∈ [joins, logs], o.facts.alwaysThrows p.operand = false := by decide +kernel
  have respects : ∀ p ∈ [joins, logs] ++ [throws], p.Respects o.facts := by
    simp only [List.cons_append, List.nil_append, List.forall_mem_cons]
    exact ⟨⟨by decide +kernel, by decide +kernel⟩, ⟨by decide +kernel, by decide +kernel⟩,
      ⟨by decide +kernel, by decide +kernel⟩, List.forall_mem_nil _⟩
  obtain ⟨hends, _, _, _, hiff⟩ := propagated_effects_iff o o.visitMade stoppedArray .plain s joiningCatalog.literalsPlain rfl
    [joins, logs] [] throws rfl hpre rfl respects
  have hkept : Trial.kept o.facts [joins, logs] = [logs] := by rfl
  rw [hkept] at hends hiff
  exact ⟨hends, rfl, rfl, hiff.1 rfl⟩

/-- The texts cannot be joined: there is no side effect in the node, and there is one in its replacement. -/
theorem propagated_effects_spurious :
    let o : Optimizer Console Registration := ⟨joiningCatalog.facts, joiner.natives, .none, .standard⟩
    let s : Progress Console := ⟨⟨7⟩, ⟨⟨1⟩, .empty⟩, .empty⟩
    let joins : Trial String := ⟨joinedVars, [], .error ⟨1, .nullReference, "", none⟩⟩
    let logs : Trial String := ⟨loggedText, ["log"], .ok (.string "c")⟩
    let throws : Trial String := ⟨stop, [], .error stopped⟩
    stoppedArray.form.children = [joins, logs, throws].map Trial.operand ∧
      (∀ p ∈ [joins, logs, throws], p.Respects o.facts) ∧
      (∃ r s', o.rule o.visitMade stoppedArray .plain s = .ok r s' ∧
        Expr.RunsThen stoppedArray.ty [loggedText] stop r) ∧
      (Trial.inTurn [joins, logs, throws]).effects = [] ∧ (Trial.inTurn [logs, throws]).effects = ["log"] := by
  intro o s joins logs throws
  have hchildren : stoppedArray.form.children = [joinedVars, loggedText] ++ stop :: [] := rfl
  have hends : (o.rule o.visitMade stoppedArray .plain).Ends s
      (fun r _ => Expr.RunsThen stoppedArray.ty [loggedText] stop r) (fun _ => ∀ exception, stop.form ≠ .throw exception) :=
    Optimizer.rule_ends_of_throws joiningCatalog.literalsPlain rfl hchildren (by decide +kernel) rfl s
  refine ⟨rfl, ?_, ?_, rfl, rfl⟩
  · simp only [List.forall_mem_cons]
    exact ⟨⟨by decide +kernel, by decide +kernel⟩, ⟨by decide +kernel, by decide +kernel⟩,
      ⟨by decide +kernel, by decide +kernel⟩, List.forall_mem_nil _⟩
  · cases hends with
    | result h hr => exact ⟨_, _, h, hr⟩
    | halted _ h => exact absurd rfl (h _)

end TypedTree
