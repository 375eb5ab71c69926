import TypedTree.Proofs.Idempotence
import TypedTree.Proofs.Plans

/-!
# Which faults there are

A run may end in a fault for two reasons: a tree has to take the place of one of another type and cannot, or an evaluator
gave a value that the node cannot have (`Evaluators.Gives`). Nothing else halts a run with a fault, whatever the tree and the
host (`Optimizer.visit_reported`); that a member cannot be compiled is no fault.

The first reason does not occur in a tree that is loosely typed. What is put in the place of a node is then a throw, which
may have any type, a branch, which has the type of the node unless its value is discarded, or an inlined body, which has the
type of the invocation; so it can be retyped (`Optimizer.Offers.retype_failsAs`). As visits keep trees loosely typed, this is
so for every node that a run gets to (`errors_of_optimize`).
-/

namespace TypedTree

/-! ### Faults of retyping and folding -/

/-- When the computation fails, it is with a fault as `F` says. -/
def Fallible.FailsAs {α : Type} (x : Fallible α) (F : Fault → Prop) : Prop := ∀ s fault, x s = .error fault → F fault

section

variable {α β : Type} {F : Fault → Prop} {x : Fallible α} {f : α → Fallible β}

theorem Fallible.failsAs_pure {a : α} : (pure a : Fallible α).FailsAs F := nofun

theorem Fallible.failsAs_fresh {y : Fresh .node α} : (liftM y : Fallible α).FailsAs F := nofun

theorem Fallible.failsAs_bind (hx : x.FailsAs F) (hf : ∀ a, (f a).FailsAs F) : (x >>= f).FailsAs F := by
  intro s fault h
  cases hxs : x s with
  | error fault' =>
    simp only [bind, StateT.bind, hxs, Except.bind] at h
    cases h
    exact hx s fault hxs
  | ok p =>
    simp only [bind, StateT.bind, hxs, Except.bind] at h
    exact hf p.1 p.2 fault h

theorem Fallible.failsAs_throw {fault : Fault} (h : F fault) : (throwThe Fault fault : Fallible α).FailsAs F := by
  rintro s _ ⟨⟩
  exact h

end

namespace Expr

open Fallible

variable {e : Expr} {ty : Ty} {F : Fault → Prop}

theorem coerce_failsAs (h : ty ≠ .void → ∀ source, F (.coercion source ty)) : (e.coerce ty).FailsAs F := by
  unfold coerce
  split
  · exact failsAs_fresh
  · next hty =>
    split
    · exact failsAs_fresh
    · exact failsAs_throw (h (by simpa using hty) e.ty)

/-- **Retyping** fails only when there is no coercion, and never when the value is discarded. -/
theorem retype_failsAs (e : Expr) (h : ty ≠ .void → ∀ source, F (.coercion source ty)) : (e.retype ty).FailsAs F := by
  induction e using inductionOn with
  | node e ih =>
    rw [retype_eq]
    split
    · exact failsAs_pure
    split
    · split
      · exact failsAs_fresh
      · exact coerce_failsAs h
    · split
      · exact failsAs_fresh
      · exact coerce_failsAs h
    · exact failsAs_fresh
    · exact failsAs_fresh
    · next test whenTrue whenFalse hform =>
      simp only [hform, Form.children] at ih
      apply failsAs_bind (ih whenTrue (by simp))
      intro a
      exact failsAs_bind (ih whenFalse (by simp)) fun b => failsAs_fresh
    · next locals body hform =>
      simp only [hform, Form.children] at ih
      split
      · next last hlast => exact failsAs_bind (ih last (List.mem_of_getLast? hlast)) fun l => failsAs_fresh
      · exact coerce_failsAs h
    · exact coerce_failsAs h

theorem retype_failsAs_of_ty (h : e.ty = ty) : (e.retype ty).FailsAs F := by
  rw [retype_eq, if_pos (by simpa using h)]
  exact failsAs_pure

theorem retype_failsAs_of_throw {exception : Option Expr} (h : e.form = .throw exception) : (e.retype ty).FailsAs F := by
  rw [retype_eq, h]
  split
  · exact failsAs_pure
  · exact failsAs_fresh

/-- **Folding** fails only when the value does not fit. -/
theorem outcomeFor_failsAs {outcome : Except Exception Value}
    (h : ∀ value, outcome = .ok value → value.isCompatible e.ty = false → F (.badResult e.text e.ty)) :
    (e.outcomeFor outcome).FailsAs F := by
  cases outcome with
  | error raised => exact failsAs_fresh
  | ok value =>
    show (e.constantFor value).FailsAs F
    unfold constantFor
    split
    · exact failsAs_fresh
    split
    · exact failsAs_fresh
    · next hfits => exact failsAs_throw (h value rfl (by simpa using hfits))

end Expr

/-! ### What evaluators give -/

/-- The value was given for a member that could be compiled. -/
def Evaluators.Gives {σ κ : Type} (ev : Evaluators σ κ) (value : Value) : Prop :=
  ∃ m w callable args w', (ev.compile m w).1 = .ok callable ∧ (ev.invoke callable args w').1 = .ok value

/-- The value of a delegate is that of its last target. -/
theorem Evaluators.gives_of_invokeAll {σ κ : Type} {ev : Evaluators σ κ} {args : List Value} {targets : List (Target Value)}
    {last : Option Value} {w : World σ} {value : Value} (h : (ev.invokeAll args targets last w).1 = some (.ok value)) :
    last = some value ∨ ev.Gives value := by
  rcases ev.yields_of_invokeAll h with hlast | ⟨t, _, m, w, callable, w', hcompile, hinvoke⟩
  · exact .inl (by simpa using hlast)
  · exact .inr ⟨m, w, callable, _, w', hcompile, hinvoke⟩

/-! ### Rules -/

namespace Optimizer

open Store Run

variable {σ κ : Type} {o : Optimizer σ κ} {E : Halt → Prop} {cx : Context} {n : Expr}
variable {again : Expr → Context → Run σ Expr}

/-- What is put in the place of `n` is a throw or a branch, unless inlining made it. -/
def Offers (o : Optimizer σ κ) (n a : Expr) : Prop := o.facts.alwaysThrows a = true ∨ n.Branch a

/-- `E` allows what may halt a plan for `n`: the faults of retyping what is put in its place, and those of folding it. -/
structure Allows (o : Optimizer σ κ) (E : Halt → Prop) (n : Expr) : Prop where
  retype {a : Expr} : o.Offers n a → (a.retype n.ty).FailsAs fun fault => E (.fault fault)
  badResult {value : Value} : o.evaluators.Gives value → value.isCompatible n.ty = false →
    E (.fault (.badResult n.text n.ty))

section

variable (hE : o.Allows E n)

include hE

theorem put_haltsAs {a : Expr} (ha : o.Offers n a) (why : Reduction) :
    HaltsAs (do let r ← a.retype n.ty; record why; return r : Run σ Expr) E := by
  apply haltsAs_bind (haltsAs_fallible (hE.retype ha))
  intro r
  exact haltsAs_recorded

theorem folded_haltsAs {outcome : Except Exception Value} (h : ∀ value, outcome = .ok value → o.evaluators.Gives value) :
    HaltsAs (do let r ← n.outcomeFor outcome; recordFold r; return r : Run σ Expr) E := by
  apply haltsAs_bind (haltsAs_fallible (Expr.outcomeFor_failsAs fun value hvalue => hE.badResult (h value hvalue)))
  intro r
  exact haltsAs_recorded

theorem propagateThrow_haltsAs (operands : List Expr) :
    (o.propagateThrow n operands (Operands.analyze o.facts operands)).HaltsAs E := by
  unfold propagateThrow
  split
  · exact haltsAs_pure
  · next position t ht =>
    obtain ⟨_, _, _, _, _, hthrows, _⟩ := Operands.analyze_thrower ht
    apply haltsAs_bind (haltsAs_fallible (hE.retype (.inl hthrows)))
    intro coerced
    split
    · exact haltsAs_bind haltsAs_pure fun _ => haltsAs_recorded
    · exact haltsAs_bind (haltsAs_fresh _) fun _ => haltsAs_recorded

omit hE

/-- That a member cannot be compiled halts nothing. -/
theorem compile?_compiles (m : Member) :
    (halting E).reaches .now (o.compile? m) fun _ answer =>
      ∀ callable ∈ answer, ∃ w, (o.evaluators.compile m w).1 = .ok callable := by
  refine (halting E).ofBind (halting_effect _) fun _ _ answer ⟨w, hw⟩ => ?_
  cases answer with
  | ok callable =>
    refine (halting E).ofPure fun _ _ => ?_
    rintro _ ⟨⟩
    exact ⟨w, hw⟩
  | error fault => exact (halting E).ofBind haltsAs_record fun _ _ _ _ => (halting E).ofPure fun _ _ => nofun

theorem foldTo_haltsAs (found : Option Expr) : (foldTo n found : Run σ Expr).HaltsAs E := by
  cases found with
  | none => exact haltsAs_pure
  | some r => exact haltsAs_recorded

theorem compareWith_haltsAs (comparison : Option κ) (value test : Value) :
    (o.compareWith comparison value test).HaltsAs E := by
  cases comparison with
  | none => exact haltsAs_pure
  | some callable =>
    rw [compareWith_some, map_eq_pure_bind]
    exact haltsAs_bind (haltsAs_effect _) fun _ => haltsAs_pure

theorem simplifyClause_haltsAs (c : Clause Expr) : (o.simplifyClause c).HaltsAs E := by
  have hremake : ∀ why (x : Fresh .node (Clause Expr)),
      HaltsAs (do let c' ← x; record why; return c' : Run σ (Clause Expr)) E := fun _ x =>
    haltsAs_bind (haltsAs_fresh x) fun _ => haltsAs_recorded
  have hbinding : (dropBinding c : Run σ (Clause Expr)).HaltsAs E := by
    unfold dropBinding
    exact haltsAs_ite (hremake _ _) haltsAs_pure
  apply haltsAs_bind hbinding
  intro c'
  have hfilter : (o.dropFilter c').HaltsAs E := by
    unfold dropFilter
    exact haltsAs_ite (hremake _ _) haltsAs_pure
  apply haltsAs_bind hfilter
  intro c''
  exact haltsAs_ite haltsAs_recorded haltsAs_pure

include hE

/-- **Choosing a case**: the induction is on the tests that are left. -/
theorem selectCase_haltsAs {fallback : Option Expr} {tests : List (Expr × Expr)} (hfallback : ∀ b ∈ fallback, n.Branch b)
    (htests : ∀ p ∈ tests, n.Branch p.2) (comparison : Option κ) (value : Value) :
    (o.selectCase n comparison value fallback tests).HaltsAs E := by
  induction tests with
  | nil =>
    cases fallback with
    | some body => exact put_haltsAs hE (.inr (hfallback body rfl)) _
    | none => exact haltsAs_bind (haltsAs_fresh _) fun _ => haltsAs_recorded
  | cons p tests ih =>
    obtain ⟨test, body⟩ := p
    by_cases h₁ : o.facts.alwaysThrows test = true
    · simp only [selectCase, h₁, if_true]
      exact put_haltsAs hE (.inl h₁) _
    cases h₂ : o.facts.constantValue? test with
    | none =>
      simp only [selectCase, h₁, h₂, if_false, Bool.false_eq_true]
      exact haltsAs_pure
    | some candidate =>
      rw [selectCase_cons (by simpa using h₁) h₂]
      apply haltsAs_bind (compareWith_haltsAs comparison value candidate)
      intro m
      rcases m with (_ | _) | raised | _
      · exact ih fun q hq => htests q (List.mem_cons_of_mem _ hq)
      · exact put_haltsAs hE (.inr (htests (test, body) List.mem_cons_self)) _
      · exact haltsAs_bind (haltsAs_fresh _) fun _ => haltsAs_recorded
      · exact haltsAs_pure

theorem tryCatch_haltsAs {body : Expr} {clauses : List (Clause Expr)} {cleanup onFault : Option Expr}
    (hform : n.form = .tryCatch body clauses cleanup onFault) : (o.tryCatch n body clauses cleanup onFault).HaltsAs E := by
  have hclauses : (o.simplifyClauses clauses).HaltsAs E :=
    haltsAs_bind (haltsAs_mapM fun c _ => simplifyClause_haltsAs c) fun _ => haltsAs_pure
  apply haltsAs_bind hclauses
  intro kept
  exact haltsAs_ite (put_haltsAs hE (.inr (.body hform)) _) (haltsAs_ite haltsAs_pure (haltsAs_fresh _))

/-- **Plans** other than inlining are halted as `E` says. -/
theorem carryOut_haltsAs {plan : Plan} (hplan : o.Plans n plan)
    (hinline : ¬ ∃ params body args, plan = .inline params body args) : (o.carryOut again n cx plan).HaltsAs E := by
  cases hplan with
  | keep => exact haltsAs_pure
  | raise h => exact put_haltsAs hE (.inl h.throws) _
  | take h => exact put_haltsAs hE (.inr h.branch) _
  | propagate => exact propagateThrow_haltsAs hE _
  | dereference => exact haltsAs_bind (haltsAs_build _) fun _ => haltsAs_recorded
  | run =>
    refine (halting E).ofBind (compile?_compiles _) fun _ _ answer hcompiles => ?_
    cases answer with
    | none => exact haltsAs_pure
    | some callable =>
      obtain ⟨w, hw⟩ := hcompiles callable rfl
      refine (halting E).ofBind (halting_effect _) ?_
      rintro _ _ outcome ⟨w', hw'⟩
      exact folded_haltsAs hE fun value hvalue => ⟨_, w, callable, _, w', hw, hw'.trans hvalue⟩
  | runAll =>
    refine (halting E).ofBind (halting_effect _) ?_
    rintro _ _ answer ⟨w, hw⟩
    cases answer with
    | none => exact haltsAs_recorded
    | some outcome =>
      refine folded_haltsAs hE fun value hvalue => ?_
      rcases Evaluators.gives_of_invokeAll (hw.trans (congrArg some hvalue)) with hlast | hgives
      · cases hlast
      · exact hgives
  | fold | decide => exact haltsAs_bind (haltsAs_build _) fun found => foldTo_haltsAs found
  | merge =>
    apply haltsAs_bind (haltsAs_fresh _)
    intro found
    cases found with
    | none => exact haltsAs_pure
    | some flat => exact haltsAs_recorded
  | @select value comparison cases known fallback hform =>
    have hselect : ∀ callable, (o.selectCase n callable known fallback (caseTests cases)).HaltsAs E := by
      intro callable
      refine selectCase_haltsAs hE ?_ (fun p hp => branch_of_caseTests hform hp) callable known
      rintro b ⟨⟩
      exact .fallback hform
    cases comparison with
    | none => exact hselect none
    | some m =>
      refine (halting E).ofBind (compile?_compiles m) fun _ _ answer _ => ?_
      cases answer with
      | none => exact haltsAs_pure
      | some callable => exact hselect (some callable)
  | inline => exact absurd ⟨_, _, _, rfl⟩ hinline
  | handle hform => exact tryCatch_haltsAs hE hform

end

/-! ### All trees -/

/-- An evaluator gave a value that does not fit. -/
def Misfit (o : Optimizer σ κ) (halt : Halt) : Prop :=
  ∃ subject expected value, halt = .fault (.badResult subject expected) ∧ o.evaluators.Gives value ∧
    value.isCompatible expected = false

/-- If the halt is a fault, it is about a coercion or about the result of an evaluator. -/
inductive Reported (o : Optimizer σ κ) : Halt → Prop where
  | coercion (source target : Ty) : Reported o (.fault (.coercion source target))
  | misfit {halt : Halt} : o.Misfit halt → Reported o halt
  | typeChanged (before after : Ty) : Reported o (.typeChanged before after)
  | exhausted : Reported o .exhausted

theorem retype_reported (a : Expr) (ty : Ty) : (a.retype ty).FailsAs fun fault => o.Reported (.fault fault) :=
  a.retype_failsAs fun _ source => .coercion source ty

theorem rule_reported (hagain : ∀ reduced, (again reduced cx).HaltsAs o.Reported) (n : Expr) :
    (o.rule again n cx).HaltsAs o.Reported := by
  obtain ⟨plan, hplan, hrule⟩ := o.exists_rule_eq n cx
  rw [hrule]
  by_cases hinline : ∃ params body args, plan = .inline params body args
  · obtain ⟨params, body, args, rfl⟩ := hinline
    apply haltsAs_bind (haltsAs_fresh _)
    intro found
    cases found with
    | none => exact haltsAs_pure
    | some body =>
      apply haltsAs_bind (haltsAs_fallible (retype_reported body n.ty))
      intro reduced
      exact haltsAs_bind haltsAs_record fun _ => hagain reduced
  · exact carryOut_haltsAs ⟨fun _ => retype_reported _ _, fun h h' => .misfit ⟨_, _, _, rfl, h, h'⟩⟩ hplan hinline

theorem finish_reported (hagain : ∀ e cx, (again e cx).HaltsAs o.Reported) (e n : Expr) (cx : Context) :
    (o.finish again e n cx).HaltsAs o.Reported := by
  apply haltsAs_bind (rule_reported (fun reduced => hagain reduced cx) n)
  intro r
  exact haltsAs_ite (haltsAs_throw (.typeChanged _ _)) (haltsAs_ite haltsAs_pure (haltsAs_effect _))

theorem pass_reported (hagain : ∀ e cx, (again e cx).HaltsAs o.Reported) (e : Expr) (cx : Context) :
    (o.pass again e cx).HaltsAs o.Reported := by
  induction e using Expr.inductionOn generalizing cx with
  | node e ih =>
    rw [pass_eq]
    apply haltsAs_bind (haltsAs_effect _)
    intro admitted
    apply haltsAs_ite _ haltsAs_pure
    apply haltsAs_bind (haltsAs_effect _)
    intro start
    apply haltsAs_ite
    · apply haltsAs_bind (haltsAs_mapM_form fun p hp => ih p.1 (o.facts.mem_of_inContext hp) p.2)
      intro form
      exact haltsAs_bind (haltsAs_fresh _) fun n => finish_reported hagain e n cx
    · apply haltsAs_bind (haltsAs_mapM_form fun p _ => hagain p.1 p.2)
      intro form
      exact haltsAs_bind (haltsAs_fresh _) fun n => finish_reported hagain e n cx

theorem visitWithin_reported {last : Expr → Context → Run σ Expr} (hlast : ∀ e cx, (last e cx).HaltsAs o.Reported)
    (fuel : Nat) : ∀ e cx, (o.visitWithin last fuel e cx).HaltsAs o.Reported := by
  induction fuel with
  | zero => exact pass_reported hlast
  | succ fuel ih => exact pass_reported ih

/-- **Visits**: of any tree, with any hooks, a visit ends in one of two kinds of faults, if in a fault at all. -/
theorem visit_reported (e : Expr) (cx : Context) : (o.visit e cx).HaltsAs o.Reported := by
  refine visitWithin_reported (fun e cx => ?_) _ e cx
  exact visitWithin_reported (fun _ _ => haltsAs_throw .exhausted) _ e cx

theorem optimize_reported {e : Expr} {s s' : Progress σ} {halt : Halt} (hrun : o.optimize e s = .error halt s') :
    o.Reported halt := by
  have hvisit : (if o.settings.level == .none then pure e else o.visit e .plain : Run σ Expr).HaltsAs o.Reported :=
    haltsAs_ite haltsAs_pure (visit_reported e .plain)
  rw [optimize_run] at hrun
  cases hvisit.ends (starting e s) with
  | result h => rw [h] at hrun; cases hrun
  | halted h hE => rw [h] at hrun; cases hrun; exact hE

/-! ### Loosely typed trees -/

/-- **Inlining in a loosely typed tree**: what is inlined needs no retyping, so only visiting it can end in a fault. -/
theorem inline_misfit {st : Store} {callee body : Expr} {params : List Var} {args : List Expr} {values : List Value}
    {A : Store → Expr → Expr → Prop} (hloose : n.LooselyTyped) (hn : n ∈ st) (hform : n.form = .invoke callee args)
    (hcallee : callee.form = .lambda params body) (hknown : o.facts.Knows args values)
    (hagain : ∀ st' reduced, st ≤ st' → reduced ∈ st' → o.Inlines n reduced →
      (o.logic o.Misfit).reaches st' (again reduced cx) fun st'' r => A st'' reduced r) :
    (o.logic o.Misfit).reaches st (o.carryOut again n cx (.inline params body args)) fun _ _ => True := by
  have hbody : body ∈ st := mem_body_of_invoke hn hform hcallee
  refine (o.logic o.Misfit).ofBind (reaches_fresh (inline?_reaches o.facts hbody)) fun st₁ hst₁ found hfound => ?_
  cases found with
  | none => exact (o.logic o.Misfit).ofPure fun _ _ => trivial
  | some r =>
    obtain ⟨hr, hinlined⟩ := hfound r rfl
    have hty : r.ty = n.ty := (hinlined.typed typeRule_loose hloose hform hcallee fun _ _ _ hq => hq.wellTyped.mono fun _ => .inl).1
    have hretype : (o.logic o.Misfit).reaches st₁ (liftM (r.retype n.ty) : Run σ Expr)
        fun st₂ reduced => reduced ∈ st₂ ∧ Retyped n.ty r reduced :=
      reaches_of_ends (retype_reaches (o := o) (E := fun _ => True) (fun _ => trivial) hr) fun _ _ s _ =>
        (haltsAs_fallible (Expr.retype_failsAs_of_ty hty)).ends s
    refine (o.logic o.Misfit).ofBind hretype ?_
    rintro st₂ hst₂ reduced ⟨hreduced, hretyped⟩
    refine (o.logic o.Misfit).ofBind reaches_record fun st₃ hst₃ _ _ => ?_
    have hinlines : o.Inlines n reduced := ⟨callee, params, body, args, values, r, hform, hcallee, hknown, hinlined, hretyped⟩
    have hst : st ≤ st₃ := hst₁.trans (hst₂.trans hst₃)
    exact (o.logic o.Misfit).ofImp (hagain st₃ reduced hst (mem_of_le hst₃ hreduced) hinlines) fun _ _ _ _ => trivial

section

variable (hraise : ∀ {t}, o.facts.alwaysThrows t = true → ∃ exception, t.form = .throw exception)

include hraise

/-- **Retyping in a loosely typed tree** does not fail: throws may have any type, and branches need no retyping unless their
value is discarded. -/
theorem Offers.retype_failsAs {a : Expr} {F : Fault → Prop} (ha : o.Offers n a) (hn : n.HasLooseType) :
    (a.retype n.ty).FailsAs F := by
  rcases ha with hthrows | hbranch
  · obtain ⟨exception, hform⟩ := hraise hthrows
    exact Expr.retype_failsAs_of_throw hform
  · rcases hbranch.ty_eq hn with hvoid | hty
    · exact a.retype_failsAs fun hne => absurd hvoid hne
    · exact Expr.retype_failsAs_of_ty hty

/-- **Rules** for nodes of loosely typed trees are halted for misfits only. -/
theorem rule_misfit {st : Store} {A : Store → Expr → Expr → Prop} (hloose : n.LooselyTyped) (hn : n ∈ st)
    (hagain : ∀ st' reduced, st ≤ st' → reduced ∈ st' → o.Inlines n reduced →
      (o.logic o.Misfit).reaches st' (again reduced cx) fun st'' r => A st'' reduced r) :
    (o.logic o.Misfit).reaches st (o.rule again n cx) (o.Settled cx n A) := by
  have hsettled : (o.logic fun _ => True).reaches st (o.rule again n cx) (o.Settled cx n A) := by
    refine rule_reaches (fun _ => trivial) hn fun st' reduced hst hr hin st₁ hst₁ s hs => ?_
    exact (hagain st' reduced hst hr hin st₁ hst₁ s hs).imp_halt fun _ _ => trivial
  refine reaches_of_ends hsettled fun st₁ hst₁ s hs => ?_
  obtain ⟨plan, hplan, hrule⟩ := o.exists_rule_eq n cx
  rw [hrule]
  by_cases hinline : ∃ params body args, plan = .inline params body args
  · obtain ⟨params, body, args, rfl⟩ := hinline
    cases hplan with
    | inline hform hcallee hknown =>
      exact (inline_misfit hloose hn hform hcallee hknown hagain st₁ hst₁ s hs).imp fun _ _ _ => trivial
  · have hallows : o.Allows o.Misfit n :=
      ⟨fun ha => ha.retype_failsAs hraise hloose.here, fun h h' => ⟨_, _, _, rfl, h, h'⟩⟩
    exact (carryOut_haltsAs hallows hplan hinline).ends s

/-- Visits keep trees loosely typed, and keep halts to misfits. -/
theorem guards_looselyTyped : o.Guards o.Misfit Expr.LooselyTyped where
  child he hc := he.child hc
  rebuilt he hR hrel hty := by
    refine all_of_rel typeRule_loose he.here hty (o.facts.rel_of_inContext hrel) ?_
    rintro a ha b ⟨cx, h⟩
    have ha : a.LooselyTyped := he.child ha
    exact ⟨((hR _ _ h).testsBoolean ha.testsBoolean).1, (hR _ _ h).looselyTyped hraise ha⟩
  inlined hn hin := hin.looselyTyped hn
  typeChanged he hv hty := absurd (hv.testsBoolean he.testsBoolean).1 hty
  rule := rule_misfit hraise

end

end Optimizer

/-- **Faults**: whatever the tree, the catalog, the evaluators, the hooks and the settings, a run that ends in a fault ends in
one about a coercion, or in one about a value that an evaluator gave and that does not fit. If the tree is loosely typed and
the hooks replace nothing, there are only such values to blame; without them, the run gives a loosely typed tree of the same
type. -/
theorem errors_of_optimize {σ κ : Type} (catalog : Catalog) (evaluators : Evaluators σ κ) (hooks : Hooks σ)
    (settings : Settings) (e : Expr) (s : Progress σ) :
    let o : Optimizer σ κ := ⟨catalog.facts, evaluators, hooks, settings⟩
    (∀ fault s', o.optimize e s = .error (.fault fault) s' →
      (∃ source target, fault = .coercion source target) ∨
        ∃ subject expected value, fault = .badResult subject expected ∧ evaluators.Gives value ∧
          value.isCompatible expected = false) ∧
    (hooks.Transparent → e.Identified s.nodes → e.LooselyTyped →
      (o.optimize e).Ends s (fun r _ => r.ty = e.ty ∧ r.LooselyTyped) fun halt =>
        ∃ subject expected value, halt = .fault (.badResult subject expected) ∧ evaluators.Gives value ∧
          value.isCompatible expected = false) := by
  intro o
  refine ⟨fun fault s' hrun => ?_, fun transparent identified typed => ?_⟩
  · cases Optimizer.optimize_reported hrun with
    | coercion source target => exact .inl ⟨source, target, rfl⟩
    | misfit h =>
      obtain ⟨subject, expected, value, hfault, h⟩ := h
      exact .inr ⟨subject, expected, value, Halt.fault.inj hfault, h⟩
  · have hraise : ∀ {t}, o.facts.alwaysThrows t = true → ∃ exception, t.form = .throw exception :=
      catalog.throw_of_alwaysThrows
    refine ((Optimizer.guards_looselyTyped hraise).optimize_ends transparent identified typed).imp ?_
    rintro r _ ⟨rfl | hvisits, _⟩
    · exact ⟨rfl, typed⟩
    · exact ⟨(hvisits.testsBoolean typed.testsBoolean).1, hvisits.looselyTyped hraise typed⟩

/-- The value of the tree is discarded. -/
def discardedChoice : Fresh .node Expr := do Expr.make .void (.tryCatch (← nestedChoice) [] none none)

/-- A choice between texts that is said to be a truth value. -/
def mistypedChoice : Fresh .node Expr := do Expr.conditional (.boolean true) (← Expr.string "a") (← Expr.string "b") .bool

/-- The method that joins texts gives a truth value. -/
def misjoiner : Registry Registration := Registry.empty.register joining ⟨0, joining, .const (.bool true)⟩

theorem errors_of_optimize_discardedChoice :
    let e := (discardedChoice ⟨0⟩).1
    let s : Progress Console := ⟨(discardedChoice ⟨0⟩).2, ⟨⟨0⟩, .empty⟩, .empty⟩
    let e' := (mistypedChoice ⟨0⟩).1
    let s' : Progress Console := ⟨(mistypedChoice ⟨0⟩).2, ⟨⟨0⟩, .empty⟩, .empty⟩
    let o : Optimizer Console Registration := ⟨joiningCatalog.facts, misjoiner.natives, .none, .standard⟩
    (match o.optimize e' s' with
      | .error (.fault (.coercion ..)) _ => true
      | _ => false) = true ∧
      (∀ fault s₁, o.optimize e' s' = .error (.fault fault) s₁ →
        (∃ source target, fault = .coercion source target) ∨
          ∃ subject expected value, fault = .badResult subject expected ∧ misjoiner.natives.Gives value ∧
            value.isCompatible expected = false) ∧
      (match o.optimize e s with
        | .error (.fault (.badResult ..)) _ => true
        | _ => false) = true ∧
      e.Identified s.nodes ∧ e.LooselyTyped ∧
      (o.optimize e).Ends s (fun r _ => r.ty = .void ∧ r.LooselyTyped) fun halt =>
        ∃ subject expected value, halt = .fault (.badResult subject expected) ∧ misjoiner.natives.Gives value ∧
          value.isCompatible expected = false := by
  intro e s e' s' o
  have identified : e.Identified s.nodes := by
    refine Expr.identified_of_reaches (Store.making.ofBind nestedChoice_reaches fun st _ choice hchoice => ?_) _
    exact Expr.make_mem rfl (by simpa [Form.children] using hchoice)
  have typed : e.LooselyTyped :=
    .node (.inr rfl) (List.forall_mem_singleton.2 (nestedChoice_wellTyped.mono fun _ => .inl))
  have hmistyped := (errors_of_optimize joiningCatalog misjoiner.natives .none .standard e' s').1
  have hdiscarded := (errors_of_optimize joiningCatalog misjoiner.natives .none .standard e s).2
  exact ⟨by decide +kernel, hmistyped, by decide +kernel, identified, typed,
    hdiscarded Hooks.none_transparent identified typed⟩

end TypedTree
