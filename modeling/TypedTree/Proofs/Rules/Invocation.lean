import TypedTree.Proofs.Rules.Basic

/-!
# Rules for invocations

An invoked function literal is inlined over known arguments, and an invoked delegate over known operands is run. The rule for
function literals is the only one that does more than a step: it leaves what inlining made to another visit.
-/

namespace TypedTree.Optimizer

open Store

variable {σ κ : Type} {o : Optimizer σ κ} {E : Halt → Prop} {st : Store} {cx : Context} {n : Expr}

/-- `r` is what a step makes of `n`, or what `A` says of a tree that inlining made of `n`. -/
def Settled (o : Optimizer σ κ) (cx : Context) (n : Expr) (A : Store → Expr → Expr → Prop) (st : Store) (r : Expr) :
    Prop :=
  o.Settles cx n st r ∨ ∃ reduced, o.Inlines n reduced ∧ A st reduced r

theorem mem_body_of_invoke (hn : n ∈ st) {callee body : Expr} {params : List Var} {args : List Expr}
    (hform : n.form = .invoke callee args) (hcallee : callee.form = .lambda params body) : body ∈ st := by
  have hmem : callee ∈ st := child hn (by rw [hform]; exact List.mem_cons_self)
  exact child hmem (by rw [hcallee]; exact List.mem_cons_self)

variable (hE : ∀ fault, E (.fault fault))

include hE

theorem invokeLiteral_reaches (hn : n ∈ st) {callee body : Expr} {params : List Var} {args : List Expr}
    (hform : n.form = .invoke callee args) (hcallee : callee.form = .lambda params body)
    {again : Expr → Context → Run σ Expr} {A : Store → Expr → Expr → Prop}
    (hagain : ∀ st' reduced, st ≤ st' → reduced ∈ st' → o.Inlines n reduced →
      (o.logic E).reaches st' (again reduced cx) fun st'' r => A st'' reduced r)
    (hrule : ∀ again, o.rule again n cx = o.invokeLiteral again n params body args cx) :
    (o.logic E).reaches st (o.invokeLiteral again n params body args cx) (o.Settled cx n A) := by
  have hops : n.form.operands = args := by rw [hform, Form.operands, hcallee]
  have hmem : ∀ e ∈ args, e ∈ st := fun e he => child hn (by rw [hform]; exact List.mem_cons_of_mem _ he)
  have hbody : body ∈ st := mem_body_of_invoke hn hform hcallee
  have hkept : (∀ again, o.invokeLiteral again n params body args cx = pure n) →
      (o.logic E).reaches st (o.invokeLiteral again n params body args cx) (o.Settled cx n A) := by
    intro heq
    rw [heq]
    refine (o.logic E).ofImp (reaches_kept hn fun _ => ?_) fun _ _ _ => .inl
    exact quiet_of_pure fun again => (hrule again).trans (heq again)
  by_cases h₁ : (Operands.analyze o.facts args).throws = true
  · simp only [invokeLiteral, h₁, if_true]
    exact (o.logic E).ofImp (propagateThrow_reaches hE hops hmem h₁) fun _ _ _ => .inl
  by_cases h₂ : (Operands.analyze o.facts args).allKnown = true
  · have hknown := Operands.analyze_known (by simpa using h₁) h₂
    by_cases h₃ : o.throwsRegardless params body = true
    · simp only [invokeLiteral, h₁, h₂, h₃, if_true, if_false, Bool.false_eq_true]
      obtain ⟨hthrows, hparams⟩ := Bool.and_eq_true_iff.1 h₃
      refine (o.logic E).ofImp (throwInstead_reaches hE hbody (.body hform hcallee ?_ hthrows)) fun _ _ _ => .inl
      intro x hx hfree
      have := List.all_eq_true.1 hparams x hx
      simp [mem_freeVars, hfree] at this
    by_cases h₄ : o.settings.inlining = true
    · simp only [invokeLiteral, h₁, h₂, h₃, h₄, if_true, if_false, Bool.false_eq_true]
      refine (o.logic E).ofBind (Run.reaches_fresh_run (inline?_reaches o.facts hbody)) ?_
      rintro st₁ hst₁ found ⟨hfound, s, hs⟩
      cases found with
      | none =>
        refine (o.logic E).ofImp (reaches_kept (mem_of_le hst₁ hn) fun _ again t => ?_) fun _ _ _ => .inl
        rw [hrule]
        simp only [invokeLiteral, h₁, h₂, h₃, h₄, if_true, if_false, Bool.false_eq_true]
        refine (Run.still t).ofBind (Run.still_fresh _) ?_
        rintro _ _ found ⟨s', hs'⟩
        have hnone := inline?_isSome o.facts params body args s s'
        rw [hs, hs', Option.isSome_none, eq_comm, Option.isSome_eq_false_iff, Option.isNone_iff_eq_none] at hnone
        subst hnone
        exact (Run.still t).ofPure fun _ _ => rfl
      | some r =>
        obtain ⟨hr, hinlined⟩ := hfound r rfl
        refine (o.logic E).ofBind (retype_reaches hE hr) ?_
        rintro st₂ hst₂ reduced ⟨hreduced, hretyped⟩
        refine (o.logic E).ofBind Run.reaches_record fun st₃ hst₃ _ _ => ?_
        have hinlines : o.Inlines n reduced :=
          ⟨callee, params, body, args, _, r, hform, hcallee, hknown, hinlined, hretyped⟩
        refine (o.logic E).ofImp (hagain st₃ reduced (hst₁.trans (hst₂.trans hst₃)) (mem_of_le hst₃ hreduced) hinlines) ?_
        exact fun _ _ r' hA => .inr ⟨reduced, hinlines, hA⟩
    · exact hkept fun _ => by simp only [invokeLiteral, h₁, h₂, h₃, h₄, if_true, if_false, Bool.false_eq_true]
  · exact hkept fun _ => by simp only [invokeLiteral, h₁, h₂, if_false, Bool.false_eq_true]

omit hE

/-- Whether targets have an outcome does not depend on the state of the host. -/
theorem invokeAll_isSome {ev : Evaluators σ κ} (hs : ev.Steady) (args : List Value) (targets : List (Target Value))
    {last last' : Option Value} (hlast : last.isSome = last'.isSome) (w w' : World σ) :
    (ev.invokeAll args targets last w).1.isSome = (ev.invokeAll args targets last' w').1.isSome := by
  induction targets generalizing last last' w w' with
  | nil =>
    rw [Evaluators.invokeAll, Evaluators.invokeAll]
    exact Option.isSome_map.trans (hlast.trans Option.isSome_map.symm)
  | cons target targets ih =>
    have hcompile := hs.compile target.method w w'
    rcases hc : ev.compile target.method w with ⟨answer, w₁⟩
    rcases hc' : ev.compile target.method w' with ⟨answer', w₁'⟩
    rw [hc, hc'] at hcompile
    dsimp only at hcompile
    subst hcompile
    simp only [Evaluators.invokeAll, bind, StateT.bind, hc, hc']
    cases answer with
    | error fault => rfl
    | ok callable =>
      have hinvoke := hs.invoke callable (target.receiver.toList ++ args) w₁ w₁'
      rcases hi : ev.invoke callable (target.receiver.toList ++ args) w₁ with ⟨outcome, w₂⟩
      rcases hi' : ev.invoke callable (target.receiver.toList ++ args) w₁' with ⟨outcome', w₂'⟩
      rw [hi, hi'] at hinvoke
      simp only [StateT.bind, bind, hi, hi']
      cases outcome with
      | error raised =>
        cases outcome' with
        | error raised' => rfl
        | ok value' => cases hinvoke
      | ok value =>
        cases outcome' with
        | error raised' => cases hinvoke
        | ok value' => exact @ih (some value) (some value') rfl w₂ w₂'

/-- What the targets of a known delegate yield for known arguments is computed. -/
theorem computes_of_invokeAll {callee r : Expr} {args : List Expr} {d : DelegateOf Value} {arguments : List Value}
    (hform : n.form = .invoke callee args) (hd : o.facts.constantValue? callee = some (.delegate d))
    (harguments : o.facts.Knows args arguments) {outcome : Except Exception Value} {w : World σ}
    (hw : (o.evaluators.invokeAll arguments d.targets none w).1 = some outcome) (ha : n.Answers outcome r) :
    o.Computes n r := by
  obtain hlast | ⟨t, ht, hyields⟩ := o.evaluators.yields_of_invokeAll hw
  · cases hlast
  refine .ran hyields (fun v hv => ?_) ha
  obtain hv | hv := List.mem_append.1 hv
  · exact .bound (by rw [hform]; exact List.mem_cons_self) hd ht (by simpa using hv)
  · obtain ⟨c, hc, hcv⟩ := exists_left_of_forall₂ harguments hv
    exact .known (by rw [hform]; exact List.mem_cons_of_mem _ hc) hcv

include hE

theorem invokeDelegate_reaches (hn : n ∈ st) {callee : Expr} {args : List Expr} (hform : n.form = .invoke callee args)
    (hcallee : ∀ params body, callee.form ≠ .lambda params body)
    (hrule : ∀ again, o.rule again n cx = o.invokeDelegate n callee args cx) :
    (o.logic E).reaches st (o.invokeDelegate n callee args cx) (o.Settles cx n) := by
  have hops : n.form.operands = callee :: args := by
    rw [hform, Form.operands]
    split
    · next h => exact absurd h (hcallee _ _)
    · rfl
  have hcomputed : n.form.isComputed = true := by
    rw [hform, Form.isComputed]
    split
    · next h => exact absurd h (hcallee _ _)
    · rfl
  have hmem : ∀ e ∈ callee :: args, e ∈ st := fun e he => child hn (by rw [hform]; exact he)
  by_cases h₁ : (Operands.analyze o.facts (callee :: args)).throws = true
  · simp only [invokeDelegate, h₁, if_true]
    exact propagateThrow_reaches hE hops hmem h₁
  by_cases h₂ : o.dereferencesNull (some callee) (Operands.analyze o.facts (callee :: args)) = true
  · simp only [invokeDelegate, h₁, h₂, if_true, if_false, Bool.false_eq_true]
    exact predictNull_reaches hcomputed (by rw [hform]; exact List.cons_ne_nil _ _)
  by_cases h₃ : ((Operands.analyze o.facts (callee :: args)).allKnown && o.mayFold n.ty cx) = true
  · have hknown := Operands.analyze_known (by simpa using h₁) (Bool.and_eq_true_iff.1 h₃).1
    simp only [invokeDelegate, h₁, h₂, h₃, if_true, if_false, Bool.false_eq_true] at hrule ⊢
    split
    · next d arguments hvalues =>
      simp only [hvalues] at hrule
      rw [hvalues] at hknown
      obtain ⟨hd, harguments⟩ := List.forall₂_cons.1 hknown
      split
      · next h =>
        simp only [h, if_true] at hrule
        refine (o.logic E).ofBind (Run.reaches_effect _) ?_
        rintro st₁ hst₁ found ⟨w, hw⟩
        cases found with
        | none =>
          refine (o.logic E).ofBind Run.reaches_record fun st₂ hst₂ _ _ => ?_
          refine reaches_kept (mem_of_le (hst₁.trans hst₂) hn) fun hs again t => ?_
          rw [hrule]
          refine (Run.still t).ofBind (Run.still_effect _) ?_
          rintro _ _ found ⟨w', hw'⟩
          have hnone := @invokeAll_isSome _ _ _ hs arguments d.targets none none rfl w w'
          rw [hw, hw', Option.isSome_none, eq_comm, Option.isSome_eq_false_iff, Option.isNone_iff_eq_none] at hnone
          subst hnone
          exact (Run.still t).ofBind Run.still_refused fun _ _ _ _ => (Run.still t).ofPure fun _ _ => rfl
        | some outcome =>
          refine (o.logic E).ofBind (outcomeFor_reaches hE outcome) ?_
          rintro st₂ _ r ⟨hr, ha⟩
          refine (o.logic E).ofBind Run.reaches_record fun _ hst _ _ => ?_
          have hcomputes : o.Computes n r := computes_of_invokeAll hform hd harguments hw ha
          exact (o.logic E).ofPure fun _ hk => ⟨mem_of_le (hst.trans hk) hr, .folded hcomputed hcomputes⟩
      · next h =>
        exact reaches_kept_of_eq hn (fun again => by rw [hrule, if_neg h]) rfl
    · next h =>
      refine reaches_kept_of_eq hn (fun again => ?_) rfl
      rw [hrule]
      split
      · next heq => exact absurd heq (h _ _)
      · rfl
  · exact reaches_kept_of_eq hn hrule (by simp only [invokeDelegate, h₁, h₂, h₃, if_false, Bool.false_eq_true])

end TypedTree.Optimizer
