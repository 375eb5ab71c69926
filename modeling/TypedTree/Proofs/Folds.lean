import TypedTree.Proofs.DeadOperands

/-!
# What folding asks for

A node that computes a value from its operands is folded to a constant only when the value may be shared
(`Optimizer.mayFold`), and only by what is pure. `Optimizer.Makes` lists what the rule for such a node may give, each with the
conditions that the rule checks first; an element that is read from an array is the exception, since it is there before.
`Optimizer.rule_makes` says that there is nothing else.

The other rules make no values but truth values, and hand on what is known for a sub-expression (`Optimizer.Passes`). So only
values that may be shared are made (`Optimizer.rule_shares`).
-/

namespace TypedTree

/-- The form computes a value from its operands: it uses a member, makes an instance or an array, reads an element, or invokes
something that is not a function literal. -/
def Form.computes : Form Expr → Bool
  | .call .. | .access .. | .new .. | .newArray .. | .index .. => true
  | .invoke callee _ =>
    match callee.form with
    | .lambda _ _ => false
    | _ => true
  | _ => false

/-- The member that the form uses. -/
def Form.member? {α : Type} : Form α → Option Member
  | .call _ m _ | .access _ m => some m
  | .new constructor _ => constructor
  | .index _ indexer _ _ => indexer
  | _ => none

/-- The expression is a throw, or runs other expressions before one. -/
def Expr.Stops (r : Expr) : Prop := (∃ exception, r.form = .throw exception) ∨ ∃ es, r.form = .block [] es

theorem Expr.Raises.stops {r : Expr} {x : Exception} (h : r.Raises x) : r.Stops := by
  obtain ⟨c, hr, _⟩ := h
  exact .inl ⟨some c, hr⟩

/-- The member could be compiled, and had the outcome for the values. -/
def Evaluators.Ran {σ κ : Type} (ev : Evaluators σ κ) (m : Member) (values : List Value)
    (outcome : Except Exception Value) : Prop :=
  ∃ callable, (∃ w, (ev.compile m w).1 = .ok callable) ∧ ∃ w, (ev.invoke callable values w).1 = outcome

theorem Run.ends_any {σ α : Type} (x : Run σ α) (s : Progress σ) : x.Ends s (fun _ _ => True) (fun _ => True) := by
  cases h : x s with
  | ok a s' => exact .result h trivial
  | error halt s' => exact .halted h trivial

/-! ### Constants -/

theorem Fallible.exists_of_bind {α β : Type} {x : Fallible α} {f : α → Fallible β} {nodes : Supply .node}
    {p : β × Supply .node} (h : (x >>= f) nodes = .ok p) : ∃ a nodes', x nodes = .ok (a, nodes') ∧ f a nodes' = .ok p := by
  change (x nodes >>= fun q => f q.1 q.2) = .ok p at h
  cases hx : x nodes with
  | ok q =>
    rw [hx] at h
    exact ⟨q.1, q.2, rfl, h⟩
  | error fault =>
    rw [hx] at h
    cases h

theorem Expr.coerce_form {ty : Ty} {t t' : Expr} {nodes nodes' : Supply .node} (h : t.coerce ty nodes = .ok (t', nodes')) :
    t'.form = .block [] [t] ∨ t'.form = .convert t := by
  unfold coerce at h
  split at h
  · cases h
    exact .inl rfl
  split at h
  · cases h
    exact .inr rfl
  · cases h

/-- Only a constant becomes a constant. -/
theorem Expr.Becomes.of_constant {ty : Ty} {t t' : Expr} {v : Value} (h : Becomes ty t t') (ht' : t'.form = .constant v) :
    t.form = .constant v := by
  obtain ⟨nodes, nodes', h⟩ := h
  have hcoerce : t.coerce ty nodes ≠ .ok (t', nodes') := by
    intro h
    obtain hf | hf := coerce_form h <;> cases hf.symm.trans ht'
  rw [retype_eq] at h
  split at h
  · cases h
    exact ht'
  cases hf : t.form with
  | constant value =>
    simp only [hf] at h
    split at h
    · have hmade : constant value ty nodes = (t', nodes') := Except.ok.inj h
      rw [← ht', ← (Expr.constant_run value ty nodes).1, hmade]
    · exact absurd h hcoerce
  | defaultOf =>
    simp only [hf] at h
    split at h
    · cases h
      cases ht'
    · exact absurd h hcoerce
  | throw exception =>
    simp only [hf] at h
    cases h
    cases ht'
  | jump kind target value =>
    simp only [hf] at h
    cases h
    cases ht'
  | conditional test a b =>
    simp only [hf] at h
    obtain ⟨_, _, _, h⟩ := Fallible.exists_of_bind h
    obtain ⟨_, _, _, h⟩ := Fallible.exists_of_bind h
    cases h
    cases ht'
  | block locals body =>
    cases hlast : body.getLast? with
    | some last =>
      simp only [hf, hlast] at h
      obtain ⟨_, _, _, h⟩ := Fallible.exists_of_bind h
      cases h
      cases ht'
    | none =>
      simp only [hf, hlast] at h
      exact absurd h hcoerce
  | _ =>
    simp only [hf] at h
    exact absurd h hcoerce

theorem Catalog.constantValue_of_constant {catalog : Catalog} {t : Expr} {v : Value} (h : t.form = .constant v) :
    catalog.facts.constantValue? t = some v := by
  simp [Catalog.facts, Expr.constantValue?, h]

theorem Catalog.alwaysThrows_of_constant {catalog : Catalog} {t : Expr} {v : Value} (h : t.form = .constant v) :
    catalog.facts.alwaysThrows t = false := by
  simp [Catalog.facts, Expr.isThrow, h]

namespace Optimizer

open Store

variable {σ κ : Type}

/-- What the rule for a node that computes a value may give, in the context `cx`. -/
inductive Makes (o : Optimizer σ κ) (cx : Context) (n : Expr) : Expr → Prop where
  /-- The node is kept. -/
  | kept : Makes o cx n n
  /-- An operand throws, or an exception is predicted. -/
  | stopped {r : Expr} : r.Stops → Makes o cx n r
  /-- The member was run. -/
  | ran {m : Member} {values : List Value} {outcome : Except Exception Value} {r : Expr} : n.form.member? = some m →
      o.facts.isPureMember m = true → o.mayFold n.ty cx = true → o.evaluators.Ran m values outcome →
      n.Answers outcome r → Makes o cx n r
  /-- A delegate was invoked. -/
  | invoked {callee : Expr} {args : List Expr} {outcome : Except Exception Value} {r : Expr} :
      n.form = .invoke callee args → o.mayFold n.ty cx = true → n.Answers outcome r → Makes o cx n r
  /-- The value is known from those of the operands. -/
  | found {value : Value} {r : Expr} : r.ty = n.ty → o.Denotes n value → r.form = .constant value →
      (∀ args, n.form = .new none args → o.facts.isPureType n.ty = true) →
      (o.mayFold n.ty cx = true ∨ ∃ receiver args, n.form = .index receiver none args false) → Makes o cx n r

variable {o : Optimizer σ κ} {cx : Context} {n : Expr} {again : Expr → Context → Run σ Expr} {s : Progress σ}

/-- A visit without hooks ends as the rule does, for every node that has the type and the shape of the tree. -/
theorem visit_ends_of_rule {e : Expr} (ho : o.hooks = .none) {Q : Expr → Prop}
    (htry : ∀ body clauses cleanup onFault, e.form ≠ .tryCatch body clauses cleanup onFault)
    (hrule : ∀ node s, node.ty = e.ty → Form.Rel (fun _ _ => True) e.form node.form →
      (o.rule o.visitMade node cx).Ends s (fun r _ => Q r) (fun _ => True)) :
    (o.visit e cx).Ends s (fun r _ => Q r) (fun _ => True) := by
  have hany : ∀ p : Expr × Context, (Run.halting fun _ => True).reaches .now (o.visit p.1 p.2) fun _ _ => True :=
    fun p _ _ s _ => (Run.ends_any (o.visit p.1 p.2) s).imp fun _ _ _ => ⟨.now, trivial, trivial, trivial⟩
  have hmap : (Run.halting fun _ => True).reaches .now
      ((o.facts.inContext cx e.form).mapM fun p => o.visit p.1 p.2)
      fun _ form => Form.Rel (fun _ _ => True) (o.facts.inContext cx e.form) form :=
    Form.mapM_reaches _ (fun _ _ _ _ _ h => h) fun p _ _ _ => hany p
  rw [visit_eq ho]
  refine Run.ends_bind (hmap .now trivial s trivial) ?_
  rintro form s₁ ⟨-, -, -, hrel⟩
  have hrel : Form.Rel (fun _ _ => True) e.form form := (o.facts.rel_of_inContext hrel).mono fun _ _ _ => trivial
  refine Run.ends_bind (P := fun node _ => node.ty = e.ty ∧ Form.Rel (fun _ _ => True) e.form node.form) ?_ ?_
  · refine Run.ends_fresh ?_
    rcases Expr.rebuild_cases htry form s₁.nodes with hnode | ⟨hty, hform⟩
    · rw [hnode]
      exact ⟨rfl, (Form.Rel.refl e.form).mono fun _ _ _ => trivial⟩
    · rw [hform]
      exact ⟨hty, hrel⟩
  · rintro node s₂ ⟨hty, hshape⟩
    refine Run.ends_bind (hrule node s₂ hty hshape) fun r s₃ hr => ?_
    split
    · exact Run.ends_throw trivial
    · exact Run.ends_pure hr

/-! ### The parts that rules share -/

theorem compile?_ends (m : Member) : (o.compile? m).Ends s
    (fun found _ => ∀ callable ∈ found, ∃ w, (o.evaluators.compile m w).1 = .ok callable) (fun _ => True) := by
  refine Run.ends_bind (Run.ends_effect (Q := fun answer _ => ∃ w, (o.evaluators.compile m w).1 = answer) ⟨_, rfl⟩) ?_
  rintro answer s₁ ⟨w, hw⟩
  cases answer with
  | ok callable =>
    refine Run.ends_pure ?_
    rintro _ ⟨⟩
    exact ⟨w, hw⟩
  | error => exact Run.ends_bind (P := fun _ _ => True) (Run.ends_record trivial) fun _ _ _ => Run.ends_pure (by simp)

theorem outcomeFor_ends (outcome : Except Exception Value) :
    (liftM (n.outcomeFor outcome) : Run σ Expr).Ends s (fun r _ => n.Answers outcome r) (fun _ => True) := by
  refine Run.ends_fallible (fun r nodes h => ?_) fun _ _ => trivial
  obtain ⟨_, _, _, _, hanswers⟩ := outcomeFor_attempts outcome initial le_rfl _ (initial_within _) r nodes h
  exact hanswers

theorem runMember_ends {m : Member} (hm : n.form.member? = some m) (hpure : o.facts.isPureMember m = true)
    (hfold : o.mayFold n.ty cx = true) (values : List Value) :
    (o.runMember n m values).Ends s (fun r _ => o.Makes cx n r) (fun _ => True) := by
  refine Run.ends_bind (compile?_ends m) fun found s₁ hfound => ?_
  cases found with
  | none => exact Run.ends_pure .kept
  | some callable =>
    refine Run.ends_bind (Run.ends_effect (Q := fun outcome _ => ∃ w, (o.evaluators.invoke callable values w).1 = outcome)
      ⟨_, rfl⟩) fun outcome s₂ hinvoke => ?_
    refine Run.ends_bind (outcomeFor_ends outcome) fun r s₃ hanswers => ?_
    refine Run.ends_bind (P := fun _ _ => True) (Run.ends_record trivial) fun _ _ _ => Run.ends_pure ?_
    exact .ran hm hpure hfold ⟨callable, hfound callable rfl, hinvoke⟩ hanswers

theorem foldTo_ends {x : Build (Option Expr)} (hx : o.Finds n x)
    (hpure : ∀ args, n.form = .new none args → o.facts.isPureType n.ty = true)
    (hgate : o.mayFold n.ty cx = true ∨ ∃ receiver args, n.form = .index receiver none args false) :
    (liftM x >>= foldTo n : Run σ Expr).Ends s (fun r _ => o.Makes cx n r) (fun _ => True) := by
  obtain rfl | hx := hx
  · exact Run.ends_pure .kept
  · refine Run.ends_bind (Run.ends_build (Q := fun found _ => ∃ r, found = some r ∧ o.Predicts n r) ?_) ?_
    · obtain ⟨_, _, _, r, hfound, _, hpredicts⟩ :=
        hx initial initial le_rfl ⟨s.nodes, s.world.references⟩ (initial_within s.nodes)
      exact ⟨r, hfound, hpredicts⟩
    · rintro _ s₁ ⟨r, rfl, hpredicts⟩
      refine Run.ends_bind (P := fun _ _ => True) (Run.ends_record trivial) fun _ _ _ => Run.ends_pure ?_
      cases hpredicts with
      | value hty hr hdenotes => exact .found hty hdenotes hr hpure hgate
      | exception _ _ hraises => exact .stopped hraises.stops

theorem predictNull_ends : (predictNull n : Run σ Expr).Ends s (fun r _ => o.Makes cx n r) (fun _ => True) :=
  ends_recorded (Run.ends_build (.stopped (.inl ⟨_, rfl⟩)))

variable (hraise : ∀ {t}, o.facts.alwaysThrows t = true → ∃ exception, t.form = .throw exception)

include hraise

theorem propagateThrow_makes {operands : List Expr} (h : (Operands.analyze o.facts operands).throws = true) :
    (o.propagateThrow n operands (Operands.analyze o.facts operands)).Ends s (fun r _ => o.Makes cx n r)
      (fun _ => True) := by
  obtain ⟨⟨position, t⟩, ht⟩ := Option.isSome_iff_exists.1 h
  obtain ⟨pre, post, rfl, _, hpre, hthrows, _⟩ := Operands.analyze_thrower ht
  obtain ⟨exception, hform⟩ := hraise hthrows
  refine ((propagateThrow_ends hpre hthrows s).imp ?_).imp_halt fun _ _ => trivial
  rintro r _ ⟨t', hbecomes, ⟨_, rfl⟩ | ⟨_, hr⟩⟩
  · exact .stopped (.inl ⟨exception, (hbecomes.throw hform).2⟩)
  · exact .stopped (.inr ⟨_, hr⟩)

/-! ### The rules -/

theorem useMember_makes {receiver : Option Expr} {m : Member} {args : List Expr} (hm : n.form.member? = some m) :
    (o.useMember n receiver m args cx).Ends s (fun r _ => o.Makes cx n r) (fun _ => True) := by
  unfold useMember
  dsimp only
  split
  · next h => exact propagateThrow_makes hraise h
  split
  · exact predictNull_ends
  split
  · next h =>
    simp only [Bool.and_eq_true] at h
    exact runMember_ends hm h.1.2 h.2 _
  · exact Run.ends_pure .kept

theorem newInstance_makes {constructor : Option Member} {args : List Expr} (hform : n.form = .new constructor args) :
    (o.newInstance n constructor args cx).Ends s (fun r _ => o.Makes cx n r) (fun _ => True) := by
  unfold newInstance
  dsimp only
  split
  · next h => exact propagateThrow_makes hraise h
  split
  · next h =>
    have hfold : o.mayFold n.ty cx = true := (Bool.and_eq_true_iff.1 h).2
    cases constructor with
    | some m =>
      dsimp only
      split
      · next hpure => exact runMember_ends (by rw [hform]; rfl) hpure hfold _
      · exact Run.ends_pure .kept
    | none =>
      dsimp only
      split
      · next hpure => exact foldTo_ends (finds_default hform) (fun _ _ => hpure) (.inl hfold)
      · exact Run.ends_pure .kept
  · exact Run.ends_pure .kept

theorem newArray_makes {element : Ty} {source : ArraySource} {items : List Expr}
    (hform : n.form = .newArray element source items) :
    (o.newArray n element source items cx).Ends s (fun r _ => o.Makes cx n r) (fun _ => True) := by
  have hnew : ∀ args, n.form = .new none args → o.facts.isPureType n.ty = true := by simp [hform]
  unfold newArray
  dsimp only
  split
  · next h => exact propagateThrow_makes hraise h
  next hthrows =>
  split
  · next h =>
    obtain ⟨hall, hfold⟩ := Bool.and_eq_true_iff.1 h
    have hknown := Operands.analyze_known (by simpa using hthrows) hall
    cases source with
    | items => exact foldTo_ends (finds_items hform hknown _) hnew (.inl hfold)
    | bounds => exact foldTo_ends (finds_bounds hform hknown.length_eq _) hnew (.inl hfold)
  · exact Run.ends_pure .kept

theorem readElement_makes {receiver : Expr} {indexer : Option Member} {args : List Expr}
    (hform : n.form = .index receiver indexer args false) :
    (o.readElement n receiver indexer args cx).Ends s (fun r _ => o.Makes cx n r) (fun _ => True) := by
  have hnew : ∀ args, n.form = .new none args → o.facts.isPureType n.ty = true := by simp [hform]
  unfold readElement
  dsimp only
  split
  · next h => exact propagateThrow_makes hraise h
  next hthrows =>
  split
  · exact predictNull_ends
  split
  · next h =>
    have hknown := Operands.analyze_known (by simpa using hthrows) (Bool.and_eq_true_iff.1 h).1
    cases indexer with
    | none =>
      generalize (Operands.analyze o.facts (receiver :: args)).values = values at hknown
      cases hknown with
      | cons hreceiver _ => exact foldTo_ends (finds_element hform hreceiver _) hnew (.inr ⟨_, _, hform⟩)
    | some m =>
      dsimp only
      split
      · next hpure =>
        obtain ⟨hpure, hfold⟩ := Bool.and_eq_true_iff.1 hpure
        exact runMember_ends (by rw [hform]; rfl) hpure hfold _
      · exact Run.ends_pure .kept
  · exact Run.ends_pure .kept

theorem invokeDelegate_makes {callee : Expr} {args : List Expr} (hform : n.form = .invoke callee args) :
    (o.invokeDelegate n callee args cx).Ends s (fun r _ => o.Makes cx n r) (fun _ => True) := by
  unfold invokeDelegate
  dsimp only
  split
  · next h => exact propagateThrow_makes hraise h
  split
  · exact predictNull_ends
  split
  · next h =>
    have hfold : o.mayFold n.ty cx = true := (Bool.and_eq_true_iff.1 h).2
    split
    · split
      · refine Run.ends_bind (P := fun _ _ => True) (Run.ends_effect trivial) fun found s₁ _ => ?_
        cases found with
        | none => exact Run.ends_bind (P := fun _ _ => True) (Run.ends_record trivial) fun _ _ _ => Run.ends_pure .kept
        | some outcome =>
          refine Run.ends_bind (outcomeFor_ends outcome) fun r s₂ hanswers => ?_
          refine Run.ends_bind (P := fun _ _ => True) (Run.ends_record trivial) fun _ _ _ => Run.ends_pure ?_
          exact .invoked hform hfold hanswers
      · exact Run.ends_pure .kept
    · exact Run.ends_pure .kept
  · exact Run.ends_pure .kept

/-- **Folding**: the rule for a node that computes a value gives nothing but what `Makes` lists. -/
theorem rule_makes (hform : n.form.computes = true) :
    (o.rule again n cx).Ends s (fun r _ => o.Makes cx n r) (fun _ => True) := by
  unfold rule
  cases hf : n.form with
  | call receiver m args => exact useMember_makes hraise (by rw [hf]; rfl)
  | access receiver m => exact useMember_makes hraise (by rw [hf]; rfl)
  | new constructor args => exact newInstance_makes hraise hf
  | newArray element source items => exact newArray_makes hraise hf
  | index receiver indexer args assigned =>
    cases assigned with
    | true => exact Run.ends_pure .kept
    | false => exact readElement_makes hraise hf
  | invoke callee args =>
    rw [hf] at hform
    show (o.invoke again n callee args cx).Ends s _ _
    unfold invoke
    unfold Form.computes at hform
    cases hc : callee.form with
    | lambda => simp [hc] at hform
    | _ => exact invokeDelegate_makes hraise hf
  | _ => rw [hf] at hform; cases hform

omit hraise

/-! ### Values that are handed on -/

/-- The value is there before the rule for `n` is used: it is known for a sub-expression, or an item of an array that is. -/
def HandsOn (o : Optimizer σ κ) (n : Expr) (v : Value) : Prop :=
  ∃ c ∈ n.form.children, o.facts.constantValue? c = some v ∨
    ∃ a, o.facts.constantValue? c = some (.array a) ∧ v ∈ a.items

/-- `r` is the node, or a truth value, or no constant but one that is handed on. -/
def Passes (o : Optimizer σ κ) (n r : Expr) : Prop := r = n ∨ r.ty = .bool ∨ ∀ v, r.form = .constant v → o.HandsOn n v

variable {catalog : Catalog} (hfacts : o.facts = catalog.facts)

include hfacts

theorem raise_of_facts {t : Expr} (h : o.facts.alwaysThrows t = true) : ∃ exception, t.form = .throw exception := by
  rw [hfacts] at h
  exact Catalog.throw_of_alwaysThrows h

/-- A sub-expression in the place of the node hands its value on. -/
theorem passes_of_becomes {t r : Expr} (ht : t ∈ n.form.children) (hr : Expr.Becomes n.ty t r) : o.Passes n r := by
  refine .inr (.inr fun v hv => ⟨t, ht, .inl ?_⟩)
  rw [hfacts]
  exact Catalog.constantValue_of_constant (hr.of_constant hv)

theorem retyped_passes {t : Expr} {k : Reduction} (ht : t ∈ n.form.children) :
    (do let r ← t.retype n.ty; record k; return r : Run σ Expr).Ends s (fun r _ => o.Passes n r) (fun _ => True) :=
  ends_recorded (Run.ends_fallible (fun _ nodes hr => passes_of_becomes hfacts ht ⟨_, nodes, hr⟩) fun _ _ => trivial)

theorem selectCase_passes {comparison : Option κ} {value : Value} {fallback : Option Expr}
    (hfallback : ∀ b ∈ fallback, b ∈ n.form.children) (tests : List (Expr × Expr))
    (htests : ∀ p ∈ tests, p.1 ∈ n.form.children ∧ p.2 ∈ n.form.children) :
    (o.selectCase n comparison value fallback tests).Ends s (fun r _ => o.Passes n r) (fun _ => True) := by
  induction tests generalizing s with
  | nil =>
    cases fallback with
    | some b => exact retyped_passes hfacts (hfallback b rfl)
    | none => exact ends_recorded (Run.ends_fresh (.inr (.inr fun v hv => by cases hv)))
  | cons p rest ih =>
    obtain ⟨⟨htest, hbody⟩, hrest⟩ := List.forall_mem_cons.1 htests
    unfold selectCase
    split
    · exact retyped_passes hfacts htest
    split
    · exact Run.ends_pure (.inl rfl)
    · refine Run.ends_bind (Run.ends_any _ s) fun verdict s₁ _ => ?_
      cases verdict with
      | decided equal =>
        cases equal with
        | true => exact retyped_passes hfacts hbody
        | false => exact ih hrest
      | undecided => exact Run.ends_pure (.inl rfl)
      | raised x =>
        refine Run.ends_bind (Run.ends_fresh (Q := fun r _ => ∀ v, r.form ≠ .constant v) fun v hv => by cases hv) ?_
        intro r s₂ hr
        refine Run.ends_bind (P := fun _ _ => True) (Run.ends_record trivial) fun _ _ _ => Run.ends_pure ?_
        exact .inr (.inr fun v hv => absurd hv (hr v))

theorem switch_passes {value : Expr} {comparison : Option Member} {cases : List (Case Expr)} {fallback : Option Expr}
    (hform : n.form = .switch value comparison cases fallback) :
    (o.switch n value comparison cases fallback).Ends s (fun r _ => o.Passes n r) (fun _ => True) := by
  have hfallback : ∀ b ∈ fallback, b ∈ n.form.children := by
    intro b hb
    rw [hform]
    simp [Form.children, Option.mem_def.1 hb]
  have htests : ∀ p ∈ caseTests cases, p.1 ∈ n.form.children ∧ p.2 ∈ n.form.children := by
    intro p hp
    rw [hform]
    exact mem_of_caseTests hp
  unfold switch
  split
  · exact retyped_passes hfacts (by rw [hform]; simp [Form.children])
  split
  · split
    · exact Run.ends_pure (.inl rfl)
    · next known _ =>
      cases comparison with
      | none => exact selectCase_passes hfacts hfallback _ htests
      | some m =>
        dsimp only
        split
        · refine Run.ends_bind (Run.ends_any _ s) fun found s₁ _ => ?_
          cases found with
          | none => exact Run.ends_pure (.inl rfl)
          | some callable => exact selectCase_passes hfacts hfallback _ htests
        · exact Run.ends_pure (.inl rfl)
  · exact Run.ends_pure (.inl rfl)

theorem conditional_passes {test whenTrue whenFalse : Expr} (hform : n.form = .conditional test whenTrue whenFalse) :
    (o.conditional n test whenTrue whenFalse).Ends s (fun r _ => o.Passes n r) (fun _ => True) := by
  unfold conditional
  split
  · exact retyped_passes hfacts (by rw [hform]; simp [Form.children])
  split
  · exact retyped_passes hfacts (by rw [hform]; split <;> simp [Form.children])
  split
  · have hflat : ∀ nodes, ∀ r ∈ (flatten? n test whenTrue whenFalse nodes).1, ∀ v, r.form ≠ .constant v := by
      intro nodes r hr v hv
      obtain ⟨heq, _⟩ | ⟨_, _, _, _, _, heq⟩ := flatten?_cases n test whenTrue whenFalse
      · rw [heq] at hr
        cases hr
      · rw [heq] at hr
        cases hr
        cases hv
    refine Run.ends_bind (Run.ends_fresh (Q := fun found _ => ∀ r ∈ found, ∀ v, r.form ≠ .constant v) (hflat _)) ?_
    intro found s₁ hfound
    cases found with
    | none => exact Run.ends_pure (.inl rfl)
    | some r =>
      refine Run.ends_bind (P := fun _ _ => True) (Run.ends_record trivial) fun _ _ _ => Run.ends_pure ?_
      exact .inr (.inr fun v hv => absurd hv (hfound r rfl v))
  · exact Run.ends_pure (.inl rfl)

theorem logical_passes {op : Connective} {left right : Expr} (hform : n.form = .logical op left right) :
    (o.logical n op left right).Ends s (fun r _ => o.Passes n r) (fun _ => True) := by
  unfold logical
  split
  · exact retyped_passes hfacts (by rw [hform]; simp [Form.children])
  split
  · exact retyped_passes hfacts (by rw [hform]; split <;> simp [Form.children])
  · exact Run.ends_pure (.inl rfl)

theorem typeTest_passes {operand : Expr} {target : Ty} {mode : TestMode} (hform : n.form = .typeTest operand target mode) :
    (o.typeTest n operand target mode).Ends s (fun r _ => o.Passes n r) (fun _ => True) := by
  have hfold : ∀ outcome : Option Bool,
      (foldTo n (outcome.map Expr.boolean) : Run σ Expr).Ends s (fun r _ => o.Passes n r) (fun _ => True) := by
    intro outcome
    cases outcome with
    | none => exact Run.ends_pure (.inl rfl)
    | some b =>
      exact Run.ends_bind (P := fun _ _ => True) (Run.ends_record trivial) fun _ _ _ => Run.ends_pure (.inr (.inl rfl))
  unfold typeTest
  split
  · exact retyped_passes hfacts (by rw [hform]; simp [Form.children])
  split
  · exact hfold _
  · exact Run.ends_pure (.inl rfl)

theorem tryCatch_passes {body : Expr} {clauses : List (Clause Expr)} {cleanup onFault : Option Expr}
    (hform : n.form = .tryCatch body clauses cleanup onFault) :
    (o.tryCatch n body clauses cleanup onFault).Ends s (fun r _ => o.Passes n r) (fun _ => True) := by
  unfold tryCatch
  refine Run.ends_bind (Run.ends_any _ s) fun kept s₁ _ => ?_
  split
  · exact retyped_passes hfacts (by rw [hform]; simp [Form.children])
  split
  · exact Run.ends_pure (.inl rfl)
  · exact Run.ends_fresh (.inr (.inr fun v hv => by cases hv))

omit hfacts in
/-- A conversion is kept, or its operand takes its place: as it throws, or as its value is known and fits. -/
theorem convert_ends (d : Expr) : (o.convert n d).Ends s
    (fun r _ => r = n ∨ o.facts.alwaysThrows d = true ∧ Expr.Becomes n.ty d r ∨
      ∃ v, o.facts.constantValue? d = some v ∧ v.isCompatible n.ty = true ∧ r.form = .constant v) (fun _ => True) := by
  unfold convert
  split
  · next hthrows =>
    exact ends_recorded (Run.ends_fallible (fun r nodes hr => .inr (.inl ⟨hthrows, _, nodes, hr⟩)) fun _ _ => trivial)
  split
  · split
    · next v hv =>
      split
      · next hfits =>
        refine Run.ends_bind (Run.ends_fresh (Q := fun r _ => r.form = .constant v) (Expr.constant_run v n.ty _).1) ?_
        intro r s₁ hr
        refine Run.ends_bind (P := fun _ _ => True) (Run.ends_record trivial) fun _ _ _ => Run.ends_pure ?_
        exact .inr (.inr ⟨v, hv, hfits, hr⟩)
      · exact Run.ends_pure (.inl rfl)
    · exact Run.ends_pure (.inl rfl)
  · exact Run.ends_pure (.inl rfl)

theorem convert_passes {operand : Expr} (hform : n.form = .convert operand) :
    (o.convert n operand).Ends s (fun r _ => o.Passes n r) (fun _ => True) := by
  have hmem : operand ∈ n.form.children := by
    rw [hform]
    exact List.mem_singleton_self operand
  refine (convert_ends operand).imp fun r _ hr => ?_
  obtain rfl | ⟨_, hbecomes⟩ | ⟨v, hv, _, hr⟩ := hr
  · exact .inl rfl
  · exact passes_of_becomes hfacts hmem hbecomes
  · refine .inr (.inr fun w hw => ?_)
    cases hr.symm.trans hw
    exact ⟨operand, hmem, .inl hv⟩

/-- The rule for a node that computes nothing, and is no invocation, makes no values but truth values. -/
theorem rule_passes (hform : n.form.computes = false)
    (hinvoke : ∀ callee args, n.form = .invoke callee args → ∀ params body, callee.form ≠ .lambda params body) :
    (o.rule again n cx).Ends s (fun r _ => o.Passes n r) (fun _ => True) := by
  unfold rule
  cases hf : n.form with
  | convert operand => exact convert_passes hfacts hf
  | conditional test whenTrue whenFalse => exact conditional_passes hfacts hf
  | logical op left right => exact logical_passes hfacts hf
  | switch value comparison cases fallback => exact switch_passes hfacts hf
  | typeTest operand target mode => exact typeTest_passes hfacts hf
  | tryCatch body clauses cleanup onFault => exact tryCatch_passes hfacts hf
  | invoke callee args =>
    -- What is invoked is a function literal, if nothing is computed.
    rw [hf] at hform
    unfold Form.computes at hform
    cases hc : callee.form with
    | lambda params body => exact absurd hc (hinvoke callee args hf params body)
    | _ => simp [hc] at hform
  | call | access | new | newArray | index =>
    rw [hf] at hform
    cases hform
  | _ => exact Run.ends_pure (.inl rfl)

theorem readOnly_of_mayFold {ty : Ty} (h : o.mayFold ty cx = true) (hty : catalog.isImmutable ty = false) :
    o.settings.folding = true ∧ cx.readOnly = true := by
  have himmutable : o.facts.isImmutable ty = false := by rw [hfacts]; exact hty
  simpa [mayFold, himmutable] using h

/-- **Sharing**: a rule makes a constant of a type that can be changed only in a read-only context, unless the value was there
before. -/
theorem rule_shares
    (hinvoke : ∀ callee args, n.form = .invoke callee args → ∀ params body, callee.form ≠ .lambda params body) :
    (o.rule again n cx).Ends s
      (fun r _ => ∀ v, r.form = .constant v → catalog.isImmutable r.ty = false →
        r = n ∨ o.HandsOn n v ∨ o.settings.folding = true ∧ cx.readOnly = true) (fun _ => True) := by
  cases hcomputes : n.form.computes with
  | false =>
    refine (rule_passes hfacts hcomputes hinvoke).imp fun r _ hr v hv hty => ?_
    obtain rfl | hbool | hpasses := hr
    · exact .inl rfl
    · rw [hbool] at hty
      cases hty
    · exact .inr (.inl (hpasses v hv))
  | true =>
    refine (rule_makes (raise_of_facts hfacts) hcomputes).imp fun r _ hr v hv hty => ?_
    cases hr with
    | kept => exact .inl rfl
    | stopped h => obtain ⟨_, h⟩ | ⟨_, h⟩ := h <;> cases h.symm.trans hv
    | ran _ _ hfold _ hanswers => exact .inr (.inr (readOnly_of_mayFold hfacts hfold (hanswers.1 ▸ hty)))
    | invoked _ hfold hanswers => exact .inr (.inr (readOnly_of_mayFold hfacts hfold (hanswers.1 ▸ hty)))
    | found htype hdenotes hr _ hgate =>
      obtain hfold | ⟨receiver, args, hindex⟩ := hgate
      · exact .inr (.inr (readOnly_of_mayFold hfacts hfold (htype ▸ hty)))
      · -- An item that is read from an array is not made by the fold.
        cases hr.symm.trans hv
        cases hdenotes with
        | element hf hknown hitem =>
          refine .inr (.inl ⟨_, ?_, .inr ⟨_, hknown, hitem⟩⟩)
          rw [hf]
          exact List.mem_cons_self
        | items h | bounds h | created h | converted h => cases hindex.symm.trans h

theorem scan_constants (items : List Expr) (h : ∀ i ∈ items, ∃ v, i.form = .constant v) (position : Nat) {known : Operands}
    (hthrower : known.thrower = none) (hknown : known.allKnown = true) :
    (Operands.scan o.facts known position items).thrower = none ∧
      (Operands.scan o.facts known position items).allKnown = true := by
  induction items generalizing position known with
  | nil => exact ⟨hthrower, hknown⟩
  | cons i items ih =>
    obtain ⟨⟨v, hv⟩, hitems⟩ := List.forall_mem_cons.1 h
    have hthrows : o.facts.alwaysThrows i = false := hfacts ▸ Catalog.alwaysThrows_of_constant hv
    have hvalue : o.facts.constantValue? i = some v := hfacts ▸ Catalog.constantValue_of_constant hv
    rw [Operands.scan, hthrows, if_neg Bool.false_ne_true]
    exact ih hitems _ ((Operands.push_thrower known i).trans hthrower) (by simp [Operands.push, hknown, hvalue])

/-- A new array of constants is folded wherever the context is read-only. -/
theorem rule_newArray {element : Ty} {items : List Expr} (hform : n.form = .newArray element .items items)
    (hitems : ∀ i ∈ items, ∃ v, i.form = .constant v) (hlimit : items.length ≤ o.settings.arrayLimit)
    (hfolding : o.settings.folding = true) (hcontext : cx.readOnly = true) :
    ∃ r s' a, o.rule again n cx s = .ok r s' ∧ r.ty = n.ty ∧ r.form = .constant (.array a) := by
  have hscan : (Operands.analyze o.facts items).thrower = none ∧ (Operands.analyze o.facts items).allKnown = true :=
    scan_constants hfacts items hitems 0 rfl rfl
  have hthrows : (Operands.analyze o.facts items).throws = false := by
    rw [Operands.throws, hscan.1]
    rfl
  have hfold : o.mayFold n.ty cx = true := by simp [mayFold, hfolding, hcontext]
  have hlength : (Operands.analyze o.facts items).values.length ≤ o.settings.arrayLimit := by
    rw [← (Operands.analyze_known hthrows hscan.2).length_eq]
    exact hlimit
  have hrule : o.rule again n cx =
      liftM (n.foldItems element (Operands.analyze o.facts items).values o.settings.arrayLimit) >>= foldTo n := by
    rw [rule, hform]
    simp only [newArray, hthrows, hscan.2, hfold, Bool.and_self, if_true, Bool.false_eq_true, if_false]
  have hends : (o.rule again n cx).Ends s (fun r _ => r.ty = n.ty ∧ ∃ a, r.form = .constant (.array a)) (fun _ => False) := by
    rw [hrule]
    refine Run.ends_bind (Run.ends_build (Q := fun found _ => ∃ r, found = some r ∧ r.ty = n.ty ∧
      ∃ a, r.form = .constant (.array a)) ?_) ?_
    · rw [Expr.foldItems, if_pos hlength]
      exact ⟨_, rfl, rfl, _, rfl⟩
    · rintro _ s₁ ⟨r, rfl, hr⟩
      exact Run.ends_bind (P := fun _ _ => True) (Run.ends_record trivial) fun _ _ _ => Run.ends_pure hr
  cases hends with
  | @result r s' hrun hr =>
    obtain ⟨hty, a, ha⟩ := hr
    exact ⟨r, s', a, hrun, hty, ha⟩
  | halted _ hE => exact hE.elim

end Optimizer

end TypedTree
