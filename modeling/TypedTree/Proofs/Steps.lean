import TypedTree.Optimize.Pass
import TypedTree.Proofs.FreeVariables

/-!
# Steps

What the rule for a node may do, said once for all rules. `Step o cx n r` lists the ways in which a rule of the optimizer
`o` turns a node `n` into `r`: it keeps the node, puts a throw, a constant, a branch or a default in its place, merges two
conditionals, or simplifies handlers. Each way comes with the reason the rule had for it. Inlining stands apart
(`Inlines`), because what it makes is visited again.

A node that is kept is kept for good: the rule, run again from any state, keeps it and counts nothing
(`Optimizer.Quiet`), provided the evaluators answer alike each time (`Evaluators.Steady`).
-/

namespace TypedTree

/-! ### Operands -/

/-- The values of the expressions are known. -/
def Facts.Knows (facts : Facts) (es : List Expr) (values : List Value) : Prop :=
  List.Forall₂ (fun e v => facts.constantValue? e = some v) es values

namespace Operands

variable {facts : Facts}

@[simp] theorem push_allPure (o : Operands) (e : Expr) : (o.push facts e).allPure = (o.allPure && facts.isPure e) := by
  cases ho : o.allKnown <;> cases hv : facts.constantValue? e <;> simp [push, ho, hv]

@[simp] theorem push_thrower (o : Operands) (e : Expr) : (o.push facts e).thrower = o.thrower := by
  cases ho : o.allKnown <;> cases hv : facts.constantValue? e <;> simp [push, ho, hv]

/-- All values are known after an operand when they were before and its own is known, which is added then. -/
theorem push_known {o : Operands} {e : Expr} (h : (o.push facts e).allKnown = true) :
    o.allKnown = true ∧ ∃ v, facts.constantValue? e = some v ∧ (o.push facts e).values = o.values ++ [v] := by
  cases ho : o.allKnown with
  | false => simp [push, ho] at h
  | true =>
    cases hv : facts.constantValue? e with
    | none => simp [push, ho, hv] at h
    | some v => exact ⟨rfl, v, rfl, by simp [push, ho, hv]⟩

theorem foldl_push_allPure (es : List Expr) (o : Operands) :
    (es.foldl (push facts) o).allPure = (o.allPure && es.all facts.isPure) := by
  induction es generalizing o with
  | nil => simp
  | cons e es ih => rw [List.foldl_cons, ih, push_allPure, List.all_cons, Bool.and_assoc]

theorem foldl_push_thrower (es : List Expr) {o : Operands} (h : o.thrower = Option.none) :
    (es.foldl (push facts) o).thrower = Option.none := by
  induction es generalizing o with
  | nil => exact h
  | cons e es ih => exact ih ((push_thrower o e).trans h)

theorem foldl_push_values (es : List Expr) {o : Operands} (h : (es.foldl (push facts) o).allKnown = true) :
    o.allKnown = true ∧ ∃ values, facts.Knows es values ∧ (es.foldl (push facts) o).values = o.values ++ values := by
  induction es generalizing o with
  | nil => exact ⟨h, [], .nil, by simp⟩
  | cons e es ih =>
    obtain ⟨hk, values, hvs, heq⟩ := ih h
    obtain ⟨ho, v, hv, hpush⟩ := push_known hk
    refine ⟨ho, v :: values, .cons hv hvs, ?_⟩
    rw [List.foldl_cons, heq, hpush, List.append_assoc, List.singleton_append]

/-- A scan stops at the first operand that throws, or takes all operands. -/
theorem scan_cases (es : List Expr) (o : Operands) (position : Nat) :
    (∃ pre t post, es = pre ++ t :: post ∧ (∀ e ∈ pre, facts.alwaysThrows e = false) ∧ facts.alwaysThrows t = true ∧
      scan facts o position es = { pre.foldl (push facts) o with thrower := some (position + pre.length, t) }) ∨
    ((∀ e ∈ es, facts.alwaysThrows e = false) ∧ scan facts o position es = es.foldl (push facts) o) := by
  induction es generalizing o position with
  | nil => exact .inr ⟨by simp, rfl⟩
  | cons e es ih =>
    unfold scan
    by_cases he : facts.alwaysThrows e = true
    · exact .inl ⟨[], e, es, rfl, by simp, he, by simp [he]⟩
    · have he' : facts.alwaysThrows e = false := by simpa using he
      simp only [he', Bool.false_eq_true, if_false]
      obtain ⟨pre, t, post, rfl, hpre, ht, hscan⟩ | ⟨hes, hscan⟩ := ih (o.push facts e) (position + 1)
      · refine .inl ⟨e :: pre, t, post, rfl, by simpa [he'] using hpre, ht, ?_⟩
        rw [hscan, List.foldl_cons, List.length_cons, Nat.add_assoc, Nat.add_comm 1]
      · exact .inr ⟨by simpa [he'] using hes, by rw [hscan, List.foldl_cons]⟩

/-- The first operand that throws, and the purity of those before it. -/
theorem analyze_thrower {es : List Expr} {position : Nat} {t : Expr}
    (h : (analyze facts es).thrower = some (position, t)) :
    ∃ pre post, es = pre ++ t :: post ∧ position = pre.length ∧ (∀ e ∈ pre, facts.alwaysThrows e = false) ∧
      facts.alwaysThrows t = true ∧ (analyze facts es).allPure = pre.all facts.isPure := by
  obtain ⟨pre, t', post, hes, hpre, ht, hscan⟩ | ⟨_, hscan⟩ := @scan_cases facts es .none 0
  · unfold analyze at h ⊢
    rw [hscan] at h ⊢
    simp only [Nat.zero_add, Option.some.injEq, Prod.mk.injEq] at h
    obtain ⟨rfl, rfl⟩ := h
    exact ⟨pre, post, hes, rfl, hpre, ht, by simp [foldl_push_allPure, none]⟩
  · rw [analyze, hscan, foldl_push_thrower es rfl] at h
    cases h

/-- When no operand throws and all are known, their values are the values that were collected. -/
theorem analyze_known {es : List Expr} (h : (analyze facts es).throws = false)
    (hk : (analyze facts es).allKnown = true) : facts.Knows es (analyze facts es).values := by
  obtain ⟨_, t, _, _, _, _, hscan⟩ | ⟨_, hscan⟩ := @scan_cases facts es .none 0
  · rw [analyze, hscan] at h
    cases h
  · rw [analyze, hscan] at hk ⊢
    obtain ⟨_, values, hvs, heq⟩ := foldl_push_values es hk
    rw [heq]
    simpa [none] using hvs

end Operands

/-- The operands that are evaluated before a node does anything else. -/
def Form.operands : Form Expr → List Expr
  | .call receiver _ args => receiver.toList ++ args
  | .access receiver _ => receiver.toList
  | .new _ args => args
  | .newArray _ _ items => items
  | .index receiver _ args _ => receiver :: args
  | .invoke callee args =>
    match callee.form with
    | .lambda _ _ => args
    | _ => callee :: args
  | _ => []

theorem Form.operands_sublist (form : Form Expr) : form.operands.Sublist form.children := by
  cases form with
  | call | access | new | newArray | index => exact .refl _
  | invoke callee args =>
    simp only [Form.operands]
    split
    · exact List.sublist_cons_self _ _
    · exact .refl _
  | _ => exact List.nil_sublist _

theorem Form.mem_children_of_operands {form : Form Expr} {e : Expr} (h : e ∈ form.operands) : e ∈ form.children :=
  form.operands_sublist.subset h

/-- The tests of a switch in order, each with the body it selects. -/
def caseTests {α : Type} (cases : List (Case α)) : List (α × α) := cases.flatMap fun c => c.tests.map (·, c.body)

/-! ### Evaluators -/

/-- What a rule learns from an outcome besides the value or exception itself: whether there is a value, and which truth
value it is. -/
def verdict (outcome : Except Exception Value) : Option (Option Bool) := outcome.toOption.map Value.bool?

/-- The evaluators answer alike each time: a member can be compiled or not, into the same callable, and a call has a
value or not and the same truth value, whatever the state of the host. -/
structure Evaluators.Steady {σ κ : Type} (ev : Evaluators σ κ) : Prop where
  compile (m : Member) (w w' : World σ) : (ev.compile m w).1 = (ev.compile m w').1
  invoke (callable : κ) (values : List Value) (w w' : World σ) :
    verdict (ev.invoke callable values w).1 = verdict (ev.invoke callable values w').1

/-- A member that could be compiled had the outcome for the operands. -/
def Evaluators.Yields {σ κ : Type} (ev : Evaluators σ κ) (operands : List Value) (outcome : Except Exception Value) : Prop :=
  ∃ m w callable w', (ev.compile m w).1 = .ok callable ∧ (ev.invoke callable operands w').1 = outcome

/-- What the targets of a delegate amount to is what a member had for one of them; the induction is on the targets that are
left. -/
theorem Evaluators.yields_of_invokeAll {σ κ : Type} {ev : Evaluators σ κ} {args : List Value}
    {targets : List (Target Value)} {last : Option Value} {w : World σ} {outcome : Except Exception Value}
    (h : (ev.invokeAll args targets last w).1 = some outcome) :
    last.map .ok = some outcome ∨ ∃ t ∈ targets, ev.Yields (t.receiver.toList ++ args) outcome := by
  induction targets generalizing last w with
  | nil => exact .inl h
  | cons target targets ih =>
    right
    rw [invokeAll] at h
    rcases hc : ev.compile target.method w with ⟨_ | callable, w₁⟩
    · simp only [bind, StateT.bind, hc] at h
      cases h
    have hyields : ev.Yields (target.receiver.toList ++ args)
        (ev.invoke callable (target.receiver.toList ++ args) w₁).1 :=
      ⟨target.method, w, callable, w₁, by rw [hc], rfl⟩
    rcases hi : ev.invoke callable (target.receiver.toList ++ args) w₁ with ⟨raised | given, w₂⟩
    · simp only [bind, StateT.bind, hc, hi] at h
      cases h
      exact ⟨target, List.mem_cons_self, by rwa [hi] at hyields⟩
    · simp only [bind, StateT.bind, hc, hi] at h
      rcases ih h with hlast | ⟨t, ht, hgives⟩
      · cases hlast
        exact ⟨target, List.mem_cons_self, by rwa [hi] at hyields⟩
      · exact ⟨t, List.mem_cons_of_mem _ ht, hgives⟩

/-- The rule for the node keeps it and counts nothing, from every state. -/
def Optimizer.Quiet {σ κ : Type} (o : Optimizer σ κ) (cx : Context) (n : Expr) : Prop :=
  ∀ again t, (Run.still t).reaches .now (o.rule again n cx) fun _ r => r = n

/-! ### What takes the place of a node -/

/-- A constant, a default or a throw of a constant. -/
inductive Expr.IsLeaf (r : Expr) : Prop where
  | constant {value : Value} : r.form = .constant value → r.IsLeaf
  | defaultOf : r.form = .defaultOf → r.IsLeaf
  | throw {c : Expr} {value : Value} : r.form = .throw (some c) → c.form = .constant value → r.IsLeaf

/-- `r` is a throw of the exception, as a constant of its exact type. -/
def Expr.Raises (r : Expr) (x : Exception) : Prop :=
  ∃ c, r.form = .throw (some c) ∧ c.form = .constant (.exception x) ∧ c.ty = x.ty

theorem Expr.Raises.isLeaf {r : Expr} {x : Exception} (h : r.Raises x) : r.IsLeaf := by
  obtain ⟨c, hr, hc, _⟩ := h
  exact .throw hr hc

/-- What an uninitialised place of the type holds: its default value, or a new instance without fields. -/
inductive Ty.IsDefault (ty : Ty) : Value → Prop where
  | value {v : Value} : ty.defaultValue? = some v → IsDefault ty v
  | empty {x : ObjectOf Value} : ty.isPlainValueType = true → x.ty = ty → x.fields = [] → IsDefault ty (.object x)

/-- `r` takes the place of `n` when the evaluation of `n` had the given outcome. -/
def Expr.Answers (n : Expr) (outcome : Except Exception Value) (r : Expr) : Prop :=
  r.ty = n.ty ∧
    match outcome with
    | .ok value => if n.ty = .void then r.form = .defaultOf else r.form = .constant value ∧ value.isCompatible n.ty = true
    | .error raised => r.Raises raised.unwrap

theorem Expr.Answers.isLeaf {n r : Expr} {outcome : Except Exception Value} (h : n.Answers outcome r) : r.IsLeaf := by
  obtain ⟨_, h⟩ := h
  cases outcome with
  | ok value =>
    dsimp only at h
    split at h
    · exact .defaultOf h
    · exact .constant h.1
  | error e => exact h.isLeaf

/-- Nodes that may be folded to whatever their evaluation gives, calls of static methods apart. -/
def Form.isComputed : Form Expr → Bool
  | .call receiver _ _ => receiver.isSome
  | .access .. | .new .. | .newArray .. | .index .. | .convert _ => true
  | .invoke callee _ =>
    match callee.form with
    | .lambda _ _ => false
    | _ => true
  | .switch _ comparison _ _ => comparison.isSome
  | _ => false

namespace Optimizer

variable {σ κ : Type} (o : Optimizer σ κ) (n : Expr)

/-- The tests of the switch `n` before some place are known to differ from its known value; nothing is said where the
comparison is a member. -/
def Misses (comparison : Option Member) (value : Value) (passed : List (Expr × Expr)) : Prop :=
  comparison = none → ∀ p ∈ passed, ∃ v, o.facts.constantValue? p.1 = some v ∧ value.defaultEquals v = false

/-- The throw `t` decides the evaluation of `n`, and nothing before it has a side effect. -/
inductive Throws : Expr → Prop where
  | operand {pre post : List Expr} {t : Expr} : n.form.operands = pre ++ t :: post →
      (∀ e ∈ pre, o.facts.isPure e = true) → o.facts.alwaysThrows t = true → Throws t
  | conditional {t a b : Expr} : n.form = .conditional t a b → o.facts.alwaysThrows t = true → Throws t
  | logical {op : Connective} {t right : Expr} : n.form = .logical op t right → o.facts.alwaysThrows t = true →
      Throws t
  | switch {t : Expr} {comparison : Option Member} {cases : List (Case Expr)} {fallback : Option Expr} :
      n.form = .switch t comparison cases fallback → o.facts.alwaysThrows t = true → Throws t
  | caseTest {value t body : Expr} {comparison : Option Member} {cases : List (Case Expr)} {fallback : Option Expr}
      {known : Value} {passed rest : List (Expr × Expr)} : n.form = .switch value comparison cases fallback →
      o.facts.constantValue? value = some known → caseTests cases = passed ++ (t, body) :: rest →
      o.Misses comparison known passed → o.facts.alwaysThrows t = true → Throws t
  | typeTest {t : Expr} {target : Ty} {mode : TestMode} : n.form = .typeTest t target mode →
      o.facts.alwaysThrows t = true → Throws t
  | convert {t : Expr} : n.form = .convert t → o.facts.alwaysThrows t = true → Throws t
  | body {callee t : Expr} {params : List Var} {args : List Expr} : n.form = .invoke callee args →
      callee.form = .lambda params t → (∀ x ∈ params, ¬ Free x t) → o.facts.alwaysThrows t = true → Throws t

/-- The branch `b` is the one that `n` evaluates to. -/
inductive Chooses : Expr → Prop where
  | conditional {test a b : Expr} {taken : Bool} : n.form = .conditional test a b →
      o.facts.truth? test = some taken → Chooses (if taken then a else b)
  | logical {op : Connective} {left right : Expr} {value : Bool} : n.form = .logical op left right →
      o.facts.truth? left = some value → Chooses (if value == (op == .and) then right else left)
  | case {value test b : Expr} {comparison : Option Member} {cases : List (Case Expr)} {fallback : Option Expr}
      {known : Value} {passed rest : List (Expr × Expr)} : n.form = .switch value comparison cases fallback →
      o.facts.constantValue? value = some known → caseTests cases = passed ++ (test, b) :: rest →
      o.Misses comparison known passed →
      (comparison = none → ∃ v, o.facts.constantValue? test = some v ∧ known.defaultEquals v = true) → Chooses b
  | fallback {value b : Expr} {comparison : Option Member} {cases : List (Case Expr)} {known : Value} :
      n.form = .switch value comparison cases (some b) → o.facts.constantValue? value = some known →
      o.Misses comparison known (caseTests cases) → Chooses b
  | body {b : Expr} {clauses : List (Clause Expr)} {onFault : Option Expr} :
      n.form = .tryCatch b clauses none onFault → Chooses b

/-- The clause `d` is the clause `c` without an unused binding and without a filter that always holds, and its filter may
hold. -/
structure Simplified (d c : Clause Expr) : Prop where
  test : d.test = c.test
  body : d.body = c.body
  binding : d.binding = if hasUnusedBinding c then none else c.binding
  filter : d.filter = if c.filter.any o.facts.isTrue then none else c.filter
  alive : o.isDead d = false

/-- Whether a body takes the place of the whole, given the clauses that are left. -/
def collapses (body : Expr) (kept : List (Clause Expr)) (cleanup onFault : Option Expr) : Bool :=
  o.settings.trySimplification && cleanup.isNone
    && ((kept.isEmpty && onFault.isNone) || o.facts.neverThrows body)

/-- The value of `n` is known from those of its sub-expressions, without the help of evaluators. -/
inductive Denotes : Value → Prop where
  | items {element : Ty} {items : List Expr} {a : ArrayOf Value} : n.form = .newArray element .items items →
      o.facts.Knows items a.items → a.element = element → a.lengths.length = 1 → Denotes (.array a)
  | bounds {element : Ty} {bounds : List Expr} {a : ArrayOf Value} : n.form = .newArray element .bounds bounds →
      a.element = element → a.lengths.length = bounds.length → (∀ v ∈ a.items, element.IsDefault v) →
      Denotes (.array a)
  | element {receiver : Expr} {args : List Expr} {a : ArrayOf Value} {item : Value} :
      n.form = .index receiver none args false → o.facts.constantValue? receiver = some (.array a) → item ∈ a.items →
      Denotes item
  | created {args : List Expr} {v : Value} : n.form = .new none args → n.ty.IsDefault v → Denotes v
  | converted {operand : Expr} {v : Value} : n.form = .convert operand → o.facts.constantValue? operand = some v →
      v.isCompatible n.ty = true → Denotes v

/-- The value is known for a sub-expression of `n`, or bound in a delegate that is. -/
inductive Supplies : Value → Prop where
  | known {c : Expr} {v : Value} : c ∈ n.form.children → o.facts.constantValue? c = some v → Supplies v
  | bound {c : Expr} {d : DelegateOf Value} {t : Target Value} {v : Value} : c ∈ n.form.children →
      o.facts.constantValue? c = some (.delegate d) → t ∈ d.targets → t.receiver = some v → Supplies v

/-- The node `n` is computed to the leaf `r`. -/
inductive Computes (r : Expr) : Prop where
  /-- A member was run. -/
  | ran {operands : List Value} {outcome : Except Exception Value} : o.evaluators.Yields operands outcome →
      (∀ v ∈ operands, o.Supplies n v) → n.Answers outcome r → Computes r
  /-- The value was there. -/
  | found {value : Value} : r.ty = n.ty → r.form = .constant value → o.Denotes n value → Computes r
  /-- The sub-expressions are such that an exception is raised. -/
  | raised {x : Exception} {name : String} : n.form.children ≠ [] → r.ty = n.ty → r.Raises x →
      x.ty = .exceptionNamed name → x.inner = none → Computes r

variable {o n} in
theorem Computes.ty_eq {r : Expr} (h : o.Computes n r) : r.ty = n.ty := by
  cases h with
  | ran _ _ ha => exact ha.1
  | found hty | raised _ hty => exact hty

variable {o n} in
theorem Computes.isLeaf {r : Expr} (h : o.Computes n r) : r.IsLeaf := by
  cases h with
  | ran _ _ ha => exact ha.isLeaf
  | found _ hf => exact .constant hf
  | raised _ _ hr => exact hr.isLeaf

/-- What a rule other than inlining may make of the node `n` in the context `cx`. -/
inductive Step (cx : Context) : Expr → Prop where
  /-- The node is kept, and will be. -/
  | kept : (o.evaluators.Steady → o.Quiet cx n) → Step cx n
  /-- A throw takes its place. -/
  | threw {t r : Expr} : o.Throws n t → Retyped n.ty t r → Step cx r
  /-- A throwing operand takes its place, after the impure ones before it. -/
  | threwAfter {pre post : List Expr} {t t' r : Expr} : n.form.operands = pre ++ t :: post →
      o.facts.alwaysThrows t = true → (∃ e ∈ pre, o.facts.isPure e = false) → Retyped n.ty t t' → r.ty = n.ty →
      r.form = .block [] (pre.filter (!o.facts.isPure ·) ++ [t']) → Step cx r
  /-- A static method was called. -/
  | called {m : Member} {args : List Expr} {values : List Value} {callable : κ} {outcome : Except Exception Value}
      {r : Expr} : n.form = .call none m args → o.facts.Knows args values →
      (∃ w, (o.evaluators.compile m w).1 = .ok callable) →
      (∃ w, (o.evaluators.invoke callable values w).1 = outcome) → n.Answers outcome r → Step cx r
  /-- Anything else was computed. -/
  | folded {r : Expr} : n.form.isComputed = true → o.Computes n r → Step cx r
  /-- A type test is decided. -/
  | decided {operand : Expr} {target : Ty} {mode : TestMode} (b : Bool) : n.form = .typeTest operand target mode →
      Step cx (.boolean b)
  /-- A branch takes its place. -/
  | branch {b r : Expr} : o.Chooses n b → Retyped n.ty b r → Step cx r
  /-- No case of a switch applies, and there is no fallback. -/
  | defaulted {value r : Expr} {comparison : Option Member} {cases : List (Case Expr)} {known : Value} :
      n.form = .switch value comparison cases none → o.facts.constantValue? value = some known →
      o.Misses comparison known (caseTests cases) → r.ty = n.ty → r.form = .defaultOf → Step cx r
  /-- Two conditionals that share their last branch are merged. -/
  | flattened {test whenTrue whenFalse innerTest innerTrue innerFalse both r : Expr} :
      n.form = .conditional test whenTrue whenFalse → whenTrue.form = .conditional innerTest innerTrue innerFalse →
      o.settings.flattening = true → o.facts.alwaysThrows test = false → o.facts.truth? test = none →
      whenTrue.ty = n.ty → (whenFalse.form = .defaultOf ∨ ∃ v, whenFalse.form = .constant v) →
      innerFalse.equals whenFalse = true → both.ty = .bool → both.form = .logical .and test innerTest → r.ty = n.ty →
      r.form = .conditional both innerTrue whenFalse → Step cx r
  /-- Handlers are simplified. -/
  | simplified {body r : Expr} {clauses kept : List (Clause Expr)} {cleanup onFault : Option Expr} :
      n.form = .tryCatch body clauses cleanup onFault → List.SublistForall₂ o.Simplified kept clauses →
      o.collapses body kept cleanup onFault = false → r.ty = n.ty → r.form = .tryCatch body kept cleanup onFault →
      Step cx r

/-- Inlining makes `reduced` of the node `n`. -/
def Inlines (reduced : Expr) : Prop :=
  ∃ callee params body args values r, n.form = .invoke callee args ∧ callee.form = .lambda params body ∧
    o.facts.Knows args values ∧ Inlined o.facts params body args r ∧ Retyped n.ty r reduced

end Optimizer

end TypedTree
