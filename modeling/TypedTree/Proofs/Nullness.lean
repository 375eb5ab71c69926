import TypedTree.Proofs.Constants
import TypedTree.Proofs.Folds
import TypedTree.Proofs.InstanceTests

/-!
# What is never null, and what is folded to null

Whether an expression is never null is read off its form and its type: a value type without nulls has none, and what makes a
new instance, array or function gives one. Folding makes the value instead. The two agree for types without nulls, because
constants stay well typed, and for arrays and functions; but a default instance of a type with nulls is a null
(`Optimizer.CreatesNull`), and a constructor gives whatever its evaluator gives (`Optimizer.IsGivenNull`). A conversion hands
this on to wider types (`Expr.Carries`).

So an expression that is never null may be folded to a null, and `never_null_folded_to_null` says when.
-/

namespace TypedTree

/-! ### Nulls -/

theorem Ty.admitsNull_of_isPlainValueType {ty : Ty} (h : ty.isPlainValueType = true) : ty.admitsNull = false := by
  simp [admitsNull, h]

theorem Ty.isNull_of_defaultValue? {ty : Ty} {v : Value} (h : ty.defaultValue? = some v) : v.isNull = ty.admitsNull := by
  unfold defaultValue? at h
  split at h
  iterate 5
    · cases h
      rfl
  · split at h
    · next hnull =>
      cases h
      rw [hnull]
      rfl
    · cases h

theorem elementDefault_of_admitsNull {ty : Ty} (h : ty.admitsNull = true) : elementDefault ty = pure (some .null) := by
  have hplain : ty.isPlainValueType = false := by
    simp only [Ty.admitsNull, Bool.and_eq_true, Bool.not_eq_true'] at h
    exact h.2
  have hdefault : ty.defaultValue? = some .null := by
    unfold Ty.defaultValue?
    split
    iterate 5
      · cases h
    · rw [if_pos h]
  unfold elementDefault
  split
  · simp [hplain, hdefault]
  · simp [hdefault]

theorem Ty.IsDefault.admitsNull {ty : Ty} {v : Value} (h : ty.IsDefault v) (hv : v.isNull = true) :
    ty.admitsNull = true := by
  cases h with
  | value h => rw [← Ty.isNull_of_defaultValue? h, hv]
  | empty => cases hv

namespace Expr

variable {e d : Expr}

theorem isAlwaysNull_of_convert (h : e.form = .convert d) : e.isAlwaysNull = (e.ty.admitsNull && d.isAlwaysNull) := by
  obtain ⟨id, ty, form⟩ := e
  cases h
  rfl

theorem isAlwaysNull_of_constant {v : Value} (h : e.form = .constant v) : e.isAlwaysNull = v.isNull := by
  obtain ⟨id, ty, form⟩ := e
  cases h
  rfl

theorem isAlwaysNull_of_default (h : e.form = .defaultOf) : e.isAlwaysNull = e.ty.admitsNull := by
  obtain ⟨id, ty, form⟩ := e
  cases h
  rfl

/-- Only constants, defaults and conversions are known to be null. -/
theorem form_of_isAlwaysNull (h : e.isAlwaysNull = true) :
    (∃ v, e.form = .constant v) ∨ e.form = .defaultOf ∨ ∃ d, e.form = .convert d := by
  obtain ⟨id, ty, form⟩ := e
  cases form with
  | constant v => exact .inl ⟨v, rfl⟩
  | defaultOf => exact .inr (.inl rfl)
  | convert d => exact .inr (.inr ⟨d, rfl⟩)
  | _ => cases h

/-- What is never null is of a type without nulls, or a constant, a new instance, array or function, or a conversion of
something that is never null. -/
theorem cases_of_isNeverNull (h : e.isNeverNull = true) : e.ty.isPlainValueType = true ∨
    (∃ v, e.form = .constant v ∧ v.isNull = false) ∨ (∃ constructor args, e.form = .new constructor args) ∨
      (∃ element source items, e.form = .newArray element source items) ∨ (∃ params body, e.form = .lambda params body) ∨
        ∃ d, e.form = .convert d ∧ d.isNeverNull = true := by
  obtain ⟨id, ty, form⟩ := e
  cases form with
  | constant v => simpa [isNeverNull] using h
  | new constructor args => simp
  | newArray element source items => simp
  | lambda params body => simp
  | convert d => simpa [isNeverNull] using h
  | _ => exact .inl h

/-- The value that is known for an expression is null when the expression is. -/
theorem isNull_of_known {v : Value} (h : e.constantValue? = some v) : v.isNull = e.isAlwaysNull := by
  unfold constantValue? at h
  split at h
  · next hf =>
    cases h
    rw [isAlwaysNull_of_constant hf]
  · next hf =>
    rw [isAlwaysNull_of_default hf, Ty.isNull_of_defaultValue? h]
  · cases h

theorem Stops.isAlwaysNull (h : e.Stops) : e.isAlwaysNull = false := by
  obtain ⟨id, ty, form⟩ := e
  obtain ⟨_, h⟩ | ⟨_, h⟩ := h <;> cases h <;> rfl

/-- A sound expression of a type without nulls is not known to be null. -/
theorem IsSound.isAlwaysNull_of_plain (he : e.IsSound) (hplain : e.ty.isPlainValueType = true) : e.isAlwaysNull = false := by
  have hadmits : e.ty.admitsNull = false := Ty.admitsNull_of_isPlainValueType hplain
  rw [Bool.eq_false_iff]
  intro hnull
  obtain ⟨v, hf⟩ | hf | ⟨d, hf⟩ := form_of_isAlwaysNull hnull
  · rw [isAlwaysNull_of_constant hf, Value.isNull_iff] at hnull
    have hfits := (he.constant hf).2
    rw [Value.isCompatible_of_null hnull, hadmits] at hfits
    cases hfits
  · rw [isAlwaysNull_of_default hf, hadmits] at hnull
    cases hnull
  · rw [isAlwaysNull_of_convert hf, hadmits] at hnull
    cases hnull

/-- The two facts about null exclude each other for sound expressions. -/
theorem isAlwaysNull_of_isNeverNull (he : e.All IsSound) (hnever : e.isNeverNull = true) : e.isAlwaysNull = false := by
  induction e using inductionOn with
  | node e ih =>
    obtain hplain | ⟨v, hf, hv⟩ | ⟨_, _, hf⟩ | ⟨_, _, _, hf⟩ | ⟨_, _, hf⟩ | ⟨d, hf, hd⟩ := cases_of_isNeverNull hnever
    · exact he.here.isAlwaysNull_of_plain hplain
    · rw [isAlwaysNull_of_constant hf, hv]
    · obtain ⟨id, ty, form⟩ := e
      cases hf
      rfl
    · obtain ⟨id, ty, form⟩ := e
      cases hf
      rfl
    · obtain ⟨id, ty, form⟩ := e
      cases hf
      rfl
    · have hmem : d ∈ e.form.children := by rw [hf]; exact List.mem_singleton_self d
      rw [isAlwaysNull_of_convert hf, ih d hmem (he.child hmem) hd, Bool.and_false]

/-- The expression is as `P` says, or a conversion of such a one, each time to a type with nulls. -/
inductive Carries (P : Expr → Prop) : Expr → Prop where
  | here {e : Expr} : P e → Carries P e
  | convert {e d : Expr} : e.form = .convert d → e.ty.admitsNull = true → Carries P d → Carries P e

theorem Answers.isAlwaysNull {r : Expr} {outcome : Except Exception Value} (h : e.Answers outcome r)
    (hnull : r.isAlwaysNull = true) : outcome = .ok .null := by
  obtain ⟨hty, h⟩ := h
  cases outcome with
  | error raised =>
    rw [h.stops.isAlwaysNull] at hnull
    cases hnull
  | ok v =>
    dsimp only at h
    split at h
    · next hvoid =>
      rw [isAlwaysNull_of_default h, hty, hvoid] at hnull
      cases hnull
    · rw [isAlwaysNull_of_constant h.1] at hnull
      cases v with
      | null => rfl
      | _ => cases hnull

end Expr

/-! ### New instances that are null -/

namespace Optimizer

variable {σ κ : Type}

/-- A default instance of a type with nulls, which is a null, and which may be folded. -/
structure CreatesNull (o : Optimizer σ κ) (cx : Context) (e : Expr) : Prop where
  form : e.form = .new none []
  nulls : e.ty.admitsNull = true
  pure : o.facts.isPureType e.ty = true
  folds : o.mayFold e.ty cx = true

/-- A new instance for which the constructor gave a null, and which may be folded. -/
structure IsGivenNull (o : Optimizer σ κ) (cx : Context) (e : Expr) : Prop where
  form : ∃ m args values, e.form = .new (some m) args ∧ o.facts.isPureMember m = true ∧
    o.evaluators.Ran m values (.ok .null)
  folds : o.mayFold e.ty cx = true

variable {o : Optimizer σ κ} {cx : Context} {e d n r : Expr} {s : Progress σ}

/-! ### Rules -/

/-- What the rule for a new instance gives is a null only when the default instance is one or the constructor gave one. -/
theorem Makes.null_of_new {constructor : Option Member} {args : List Expr} (h : o.Makes cx n r)
    (hform : n.form = .new constructor args) (hnull : r.isAlwaysNull = true) :
    o.mayFold n.ty cx = true ∧
      (constructor = none ∧ n.ty.admitsNull = true ∧ o.facts.isPureType n.ty = true ∨
        ∃ m values, constructor = some m ∧ o.facts.isPureMember m = true ∧ o.evaluators.Ran m values (.ok .null)) := by
  cases h with
  | kept =>
    obtain ⟨id, ty, form⟩ := n
    cases hform
    cases hnull
  | stopped h => cases h.isAlwaysNull.symm.trans hnull
  | @ran m values outcome r hm hpure hfold hran hanswers =>
    rw [hform] at hm
    obtain rfl := hanswers.isAlwaysNull hnull
    exact ⟨hfold, .inr ⟨m, values, hm, hpure, hran⟩⟩
  | invoked hinvoke => cases hform.symm.trans hinvoke
  | @found v r _ hdenotes hr hpure hgate =>
    rw [Expr.isAlwaysNull_of_constant hr] at hnull
    have hfold : o.mayFold n.ty cx = true := by
      obtain hfold | ⟨_, _, hindex⟩ := hgate
      · exact hfold
      · cases hform.symm.trans hindex
    cases hdenotes with
    | created hnew hdefault =>
      cases hform.symm.trans hnew
      exact ⟨hfold, .inl ⟨rfl, hdefault.admitsNull hnull, hpure _ hform⟩⟩
    | items h | bounds h | element h | converted h => cases hform.symm.trans h

/-- What the rule for a new array gives is no null. -/
theorem Makes.null_of_newArray {element : Ty} {source : ArraySource} {items : List Expr} (h : o.Makes cx n r)
    (hform : n.form = .newArray element source items) : r.isAlwaysNull = false := by
  cases h with
  | kept =>
    obtain ⟨id, ty, form⟩ := n
    cases hform
    rfl
  | stopped h => exact h.isAlwaysNull
  | ran hm => rw [hform] at hm; cases hm
  | invoked hinvoke => cases hform.symm.trans hinvoke
  | found _ hdenotes hr =>
    rw [Expr.isAlwaysNull_of_constant hr]
    cases hdenotes with
    | items | bounds => rfl
    | element h | created h | converted h => cases hform.symm.trans h

section

variable {catalog : Catalog} (hfacts : o.facts = catalog.facts)

include hfacts

/-- A conversion gives a null only when its operand is one and its type has nulls. -/
theorem convert_null (hform : n.form = .convert d) : (o.convert n d).Ends s
    (fun r _ => r.isAlwaysNull = true → n.ty.admitsNull = true ∧ d.isAlwaysNull = true) (fun _ => True) := by
  have hkept : n.isAlwaysNull = true → n.ty.admitsNull = true ∧ d.isAlwaysNull = true := by
    rw [Expr.isAlwaysNull_of_convert hform, Bool.and_eq_true]
    exact id
  refine (convert_ends d).imp fun r _ hr hnull => ?_
  obtain rfl | ⟨hthrows, hbecomes⟩ | ⟨v, hv, hfits, hr⟩ := hr
  · exact hkept hnull
  · obtain ⟨exception, ht⟩ := raise_of_facts hfacts hthrows
    have hstops : r.Stops := .inl ⟨exception, (hbecomes.throw ht).2⟩
    cases hstops.isAlwaysNull.symm.trans hnull
  · rw [Expr.isAlwaysNull_of_constant hr] at hnull
    rw [hfacts] at hv
    rw [Value.isCompatible_of_null (Value.isNull_iff.1 hnull)] at hfits
    exact ⟨hfits, (Expr.isNull_of_known hv).symm.trans hnull⟩

/-! ### Visits -/

omit hfacts

/-- A visit of a conversion: the operand is visited, and then the rule sees a conversion of the result, unless that is taken for
the very operand. -/
theorem visit_convert (ho : o.hooks = .none) (hform : e.form = .convert d) {P Q : Expr → Prop}
    (hd : (o.visit d cx).Ends s (fun d' _ => P d') (fun _ => True))
    (hrule : ∀ node d' s, node.ty = e.ty → node.form = .convert d' → (P d' ∨ d' = d ∧ ∃ c, P c ∧ c.same d = true) →
      (o.convert node d').Ends s (fun r _ => Q r) (fun _ => True)) :
    (o.visit e cx).Ends s (fun r _ => Q r) (fun _ => True) := by
  rw [visit_eq ho, hform]
  refine Run.ends_bind (P := fun form _ => ∃ d', form = .convert d' ∧ P d') ?_ ?_
  · exact Run.ends_bind hd fun d' s₁ hd' => Run.ends_pure ⟨d', rfl, hd'⟩
  rintro _ s₁ ⟨d', rfl, hd'⟩
  refine Run.ends_bind (P := fun node _ => node.ty = e.ty ∧ ∃ d'', node.form = .convert d'' ∧
    (P d'' ∨ d'' = d ∧ ∃ c, P c ∧ c.same d = true)) ?_ ?_
  · refine Run.ends_fresh ?_
    unfold Expr.rebuild
    split
    · next hids =>
      have hsame : d'.same d = true := by
        simp only [hform, Form.children, List.map_cons, List.map_nil, beq_iff_eq, List.cons.injEq, and_true] at hids
        simp [Expr.same, hids]
      exact ⟨rfl, d, hform, .inr ⟨rfl, d', hd', hsame⟩⟩
    · rw [hform]
      exact ⟨rfl, d', rfl, .inl hd'⟩
  rintro node s₂ ⟨hty, d'', hnode, hd''⟩
  have heq : o.rule o.visitMade node cx = o.convert node d'' := by rw [rule, hnode]
  rw [heq]
  refine Run.ends_bind (hrule node d'' s₂ hty hnode hd'') fun r s₃ hr => ?_
  split
  · exact Run.ends_throw trivial
  · exact Run.ends_pure hr

/-- A visit gives another node or the very node. -/
theorem visit_same (ho : o.hooks.Transparent) (identified : e.Identified s.nodes) :
    (o.visit e cx).Ends s (fun r _ => r.same e = true → r = e) (fun _ => True) := by
  obtain ⟨st, hst, he⟩ := identified
  have hG : o.Guards (fun _ => True) _ := guards_of_faults fun _ => trivial
  refine (visit_sound hG ho _ st e cx he (Nat.lt_succ_self _) (.inr fun _ _ => trivial) st le_rfl s hst).imp ?_
  rintro r s' ⟨st', hle, _, hr, _⟩ hsame
  exact Store.eq_of_same hr (Store.mem_of_le hle he) hsame

include hfacts

theorem value_of_facts {c : Expr} {v : Value} (h : o.facts.constantValue? c = some v) : c.constantValue? = some v := by
  rw [hfacts] at h
  exact h

/-- What a visit makes of a sound expression of a type without nulls is no null. -/
theorem visit_plain (ho : o.hooks = .none) (hev : o.evaluators.KeepSound) (identified : e.Identified s.nodes)
    (sound : e.All Expr.IsSound) (hplain : e.ty.isPlainValueType = true) :
    (o.visit e cx).Ends s (fun r _ => r.isAlwaysNull = false) (fun _ => True) := by
  have hkept : o.Preserves Expr.IsSound := preserves_sound (value_of_facts hfacts) hev
  have htests : e.TestsBoolean := hkept.testsBoolean sound
  have htransparent : o.hooks.Transparent := ho ▸ Hooks.none_transparent
  refine (visit_ends (E := fun _ => True) (fun _ => trivial) htransparent identified (.inl htests)).imp ?_
  rintro r s' ⟨hvisits, _⟩
  refine (hkept.visits hvisits sound).here.isAlwaysNull_of_plain ?_
  rw [(hvisits.testsBoolean htests).1]
  exact hplain

theorem visit_new (ho : o.hooks = .none) {constructor : Option Member} {args : List Expr}
    (hform : e.form = .new constructor args) (hargs : constructor = none → args = []) :
    (o.visit e cx).Ends s
      (fun r _ => r.isAlwaysNull = true → o.CreatesNull cx e ∨ o.IsGivenNull cx e) (fun _ => True) := by
  refine visit_ends_of_rule ho (by simp [hform]) fun node s₁ hty hshape => ?_
  obtain ⟨args', hnode⟩ : ∃ args', node.form = .new constructor args' := by
    rw [hform] at hshape
    generalize node.form = form at hshape
    cases hshape
    exact ⟨_, rfl⟩
  refine (rule_makes (raise_of_facts hfacts) (by rw [hnode]; rfl)).imp fun r _ hmakes hnull => ?_
  obtain ⟨hfold, ⟨rfl, hadmits, hpure⟩ | ⟨m, values, rfl, hpure, hran⟩⟩ := hmakes.null_of_new hnode hnull
  · rw [hty] at hfold hadmits hpure
    exact .inl ⟨by rw [hform, hargs rfl], hadmits, hpure, hfold⟩
  · rw [hty] at hfold
    exact .inr ⟨⟨m, args, values, hform, hpure, hran⟩, hfold⟩

theorem visit_newArray (ho : o.hooks = .none) {element : Ty} {source : ArraySource} {items : List Expr}
    (hform : e.form = .newArray element source items) :
    (o.visit e cx).Ends s (fun r _ => r.isAlwaysNull = false) (fun _ => True) := by
  refine visit_ends_of_rule ho (by simp [hform]) fun node s₁ hty hshape => ?_
  obtain ⟨items', hnode⟩ : ∃ items', node.form = .newArray element source items' := by
    rw [hform] at hshape
    generalize node.form = form at hshape
    cases hshape
    exact ⟨_, rfl⟩
  exact (rule_makes (raise_of_facts hfacts) (by rw [hnode]; rfl)).imp fun r _ hmakes => hmakes.null_of_newArray hnode

omit hfacts

theorem visit_lambda (ho : o.hooks = .none) {params : List Var} {body : Expr} (hform : e.form = .lambda params body) :
    (o.visit e cx).Ends s (fun r _ => r.isAlwaysNull = false) (fun _ => True) := by
  refine visit_ends_of_rule ho (by simp [hform]) fun node s₁ hty hshape => ?_
  obtain ⟨id, ty, form⟩ := node
  rw [hform] at hshape
  cases hshape
  exact Run.ends_pure rfl

include hfacts

/-- **Nulls come from new instances**: what a visit makes of a sound expression that is never null is a null only when the
expression carries a default instance that is one, or an instance for which the constructor gave one. -/
theorem visit_null (ho : o.hooks = .none) (hev : o.evaluators.KeepSound) (identified : e.Identified s.nodes)
    (sound : e.All Expr.IsSound) (defaults : e.All fun n => ∀ args, n.form = .new none args → args = [])
    (never : e.isNeverNull = true) :
    (o.visit e cx).Ends s
      (fun r _ => r.isAlwaysNull = true → e.Carries fun c => o.CreatesNull cx c ∨ o.IsGivenNull cx c) (fun _ => True) := by
  induction e using Expr.inductionOn with
  | node e ih =>
    obtain hplain | ⟨v, hf, hv⟩ | ⟨constructor, args, hf⟩ | ⟨element, source, items, hf⟩ | ⟨params, body, hf⟩ |
      ⟨d, hf, hd⟩ := Expr.cases_of_isNeverNull never
    · exact (visit_plain hfacts ho hev identified sound hplain).imp fun r _ hr hnull => absurd hnull (by simp [hr])
    · rw [visit_constant ho hf]
      refine Run.ends_pure fun hnull => ?_
      rw [Expr.isAlwaysNull_of_constant hf, hv] at hnull
      cases hnull
    · have hargs : constructor = none → args = [] := by
        rintro rfl
        exact defaults.here args hf
      exact (visit_new hfacts ho hf hargs).imp fun r _ hr hnull => .here (hr hnull)
    · exact (visit_newArray hfacts ho hf).imp fun r _ hr hnull => absurd hnull (by simp [hr])
    · exact (visit_lambda ho hf).imp fun r _ hr hnull => absurd hnull (by simp [hr])
    · have hmem : d ∈ e.form.children := by rw [hf]; exact List.mem_singleton_self d
      have hchild : d.Identified s.nodes := identified.child hmem
      refine visit_convert ho hf (ih d hmem hchild (sound.child hmem) (defaults.child hmem) hd) ?_
      intro node d' s₁ hty hnode hd'
      refine (convert_null hfacts hnode).imp fun r _ hr hnull => ?_
      obtain ⟨hadmits, hd'null⟩ := hr hnull
      rw [hty] at hadmits
      obtain hcarries | ⟨rfl, _⟩ := hd'
      · exact .convert hf hadmits (hcarries hd'null)
      · -- The operand itself is never null.
        rw [Expr.isAlwaysNull_of_isNeverNull (sound.child hmem) hd] at hd'null
        cases hd'null

/-- A conversion of a null to a type with nulls is folded to a null. -/
theorem convert_of_null (hd : d.form = .constant .null) (hfolding : o.settings.folding = true)
    (hadmits : n.ty.admitsNull = true) :
    (o.convert n d).Ends s (fun r _ => r.form = .constant .null) (fun _ => True) := by
  have hthrows : o.facts.alwaysThrows d = false := hfacts ▸ Catalog.alwaysThrows_of_constant hd
  have hvalue : o.facts.constantValue? d = some .null := hfacts ▸ Catalog.constantValue_of_constant hd
  have hfits : Value.null.isCompatible n.ty = true := (Value.isCompatible_of_null rfl).trans hadmits
  simp only [convert, hthrows, hvalue, hfits, hfolding, if_true, Bool.false_eq_true, if_false]
  refine Run.ends_bind (Run.ends_fresh (Q := fun r _ => r.form = .constant .null) (Expr.constant_run .null n.ty _).1) ?_
  exact fun r s₁ hr =>
    Run.ends_bind (P := fun _ _ => True) (Run.ends_record trivial) fun _ _ _ => Run.ends_pure hr

omit hfacts in
theorem carries_folding (h : e.Carries (o.CreatesNull cx)) : o.settings.folding = true := by
  induction h with
  | here h => exact (Bool.and_eq_true_iff.1 h.folds).1
  | convert _ _ _ ih => exact ih

omit hfacts in
/-- A default instance that is a null is folded to one. -/
theorem visit_createsNull (ho : o.hooks = .none) (h : o.CreatesNull cx e) :
    (o.visit e cx).Ends s (fun r _ => r.form = .constant .null) (fun _ => True) := by
  have hmap : (o.facts.inContext cx e.form).mapM (fun p => o.visit p.1 p.2) = pure e.form := by
    rw [h.form]
    rfl
  have hrebuild : (liftM (e.rebuild e.form) : Run σ Expr) = pure e := by
    rw [Expr.rebuild_self rfl]
    rfl
  have hrule : o.rule o.visitMade e cx = liftM e.foldDefault >>= foldTo e := by
    rw [rule, h.form]
    simp [newInstance, Operands.analyze, Operands.scan, Operands.throws, Operands.none, h.folds, h.pure]
  have hfound : (liftM e.foldDefault : Run σ (Option Expr)).Ends s
      (fun found _ => ∃ r, found = some r ∧ r.form = .constant .null) (fun _ => True) := by
    refine Run.ends_build ?_
    rw [Expr.foldDefault, elementDefault_of_admitsNull h.nulls]
    exact ⟨_, rfl, (Expr.constant_run .null e.ty _).1⟩
  rw [visit_eq ho, hmap, pure_bind, hrebuild, pure_bind, hrule]
  refine Run.ends_bind (P := fun r _ => r.form = .constant .null) ?_ fun r s₁ hr => ?_
  · refine Run.ends_bind hfound ?_
    rintro _ s₁ ⟨r, rfl, hr⟩
    exact Run.ends_bind (P := fun _ _ => True) (Run.ends_record trivial) fun _ _ _ => Run.ends_pure hr
  · split
    · exact Run.ends_throw trivial
    · exact Run.ends_pure hr

/-- **What carries a null is folded to one.** -/
theorem visit_carries (ho : o.hooks = .none) (identified : e.Identified s.nodes) (h : e.Carries (o.CreatesNull cx)) :
    (o.visit e cx).Ends s (fun r _ => r.form = .constant .null) (fun _ => True) := by
  induction h with
  | here h => exact visit_createsNull ho h
  | @convert e d hf hadmits hd ih =>
    have hchild : d.Identified s.nodes := identified.child (by rw [hf]; exact List.mem_singleton_self d)
    have hsame : (o.visit d cx).Ends s (fun r _ => r.same d = true → r = d) (fun _ => True) :=
      visit_same (ho ▸ Hooks.none_transparent) hchild
    have hboth := ((ih hchild).both hsame).imp_halt fun _ _ => trivial
    refine visit_convert ho hf hboth fun node d' s₁ hty hnode hd' => ?_
    obtain ⟨hnull, _⟩ | ⟨rfl, c, ⟨hnull, hsame⟩, heq⟩ := hd'
    · exact convert_of_null hfacts hnull (carries_folding hd) (hty ▸ hadmits)
    · -- The operand would be the constant, but it carries a default instance.
      rw [hsame heq] at hnull
      cases hd with
      | here h => cases h.form.symm.trans hnull
      | convert h => cases h.symm.trans hnull

end

/-- A run that gives a result leaves the tree alone, if nothing is to be done, or else visits it. -/
theorem visit_of_optimize {s' : Progress σ} (h : o.optimize e s = .ok r s') :
    o.settings.level = .none ∧ r = e ∨
      o.settings.level ≠ .none ∧ ∃ s₁, o.visit e .plain (starting e s) = .ok r s₁ := by
  rw [optimize_run] at h
  by_cases hlevel : o.settings.level = .none
  · rw [if_pos (by simpa using hlevel)] at h
    cases h
    exact .inl ⟨hlevel, rfl⟩
  · rw [if_neg (by simpa using hlevel)] at h
    cases hvisit : o.visit e .plain (starting e s) with
    | ok r₁ s₁ =>
      rw [hvisit] at h
      cases h
      exact .inr ⟨hlevel, s₁, rfl⟩
    | error halt s₁ =>
      rw [hvisit] at h
      cases h

end Optimizer

/-- **Folding to null**: let an expression be sound and never null, and its default instances be made without arguments. What
a run makes of it is a null only if the expression carries a default instance that is a null, or an instance for which the
constructor gave a null; and unless nothing is to be done, what carries a default instance that is a null becomes a null. -/
theorem never_null_folded_to_null {σ κ : Type} (catalog : Catalog) (evaluators : Evaluators σ κ) (settings : Settings)
    (evaluators_sound : evaluators.KeepSound) (e : Expr) (s : Progress σ) (identified : e.Identified s.nodes)
    (sound : e.All Expr.IsSound) (defaults : e.All fun n => ∀ args, n.form = .new none args → args = [])
    (never : e.isNeverNull = true) :
    let o : Optimizer σ κ := ⟨catalog.facts, evaluators, .none, settings⟩
    ∀ r s', o.optimize e s = .ok r s' →
      (r.isAlwaysNull = true →
        settings.level ≠ .none ∧ e.Carries fun c => o.CreatesNull .plain c ∨ o.IsGivenNull .plain c) ∧
      (settings.level ≠ .none → e.Carries (o.CreatesNull .plain) → r.isAlwaysNull = true) := by
  intro o r s' hrun
  have hstart : e.Identified (Optimizer.starting e s).nodes := identified
  obtain ⟨hlevel, rfl⟩ | ⟨hlevel, s₁, hvisit⟩ := Optimizer.visit_of_optimize hrun
  · refine ⟨fun hnull => ?_, fun hactive => absurd hlevel hactive⟩
    cases (Expr.isAlwaysNull_of_isNeverNull sound never).symm.trans hnull
  · refine ⟨fun hnull => ⟨hlevel, ?_⟩, fun _ hcarries => ?_⟩
    · exact (Optimizer.visit_null (o := o) rfl rfl evaluators_sound hstart sound defaults never).of_eq hvisit hnull
    · rw [Expr.isAlwaysNull_of_constant ((Optimizer.visit_carries (o := o) rfl rfl hstart hcarries).of_eq hvisit)]
      rfl

open Store

/-- The default instance of the integers with null, as an object. -/
def boxedDefault : Fresh .node Expr := do Expr.make .object (.convert (← Expr.newValue (.nullable .int)))

theorem boxedDefault_reaches : making.reaches initial boxedDefault fun st e => e ∈ st := by
  refine making.ofBind (Expr.make_mem rfl (List.forall_mem_nil _)) fun st₁ _ d hd => ?_
  exact Expr.make_mem rfl (by simpa [Form.children] using hd)

theorem never_null_folded_to_null_boxedDefault :
    let e := (boxedDefault ⟨0⟩).1
    let s : Progress Console := ⟨(boxedDefault ⟨0⟩).2, ⟨⟨0⟩, .empty⟩, .empty⟩
    e.Identified s.nodes ∧ e.All Expr.IsSound ∧ e.isNeverNull = true ∧
      ∃ r s', Optimizer.bare.optimize e s = .ok r s' ∧ r.isAlwaysNull = true := by
  intro e s
  have identified : e.Identified s.nodes := Expr.identified_of_reaches boxedDefault_reaches _
  have evaluators_sound : Optimizer.bare.evaluators.KeepSound :=
    fun _ _ h => absurd h Optimizer.bare_runs_nothing
  have sound : e.All Expr.IsSound := by
    refine .node ⟨trivial, rfl, ?_, ?_, ?_⟩
      (List.forall_mem_singleton.2 (.node ⟨trivial, rfl, ?_, ?_, ?_⟩ (List.forall_mem_nil _)))
    all_goals
      intros
      contradiction
  have defaults : e.All fun n => ∀ args, n.form = .new none args → args = [] := by
    refine .node ?_ (List.forall_mem_singleton.2 (.node ?_ (List.forall_mem_nil _)))
    · rintro _ ⟨⟩
    · rintro _ ⟨⟩
      rfl
  have carries : e.Carries (Optimizer.bare.CreatesNull .plain) := .convert rfl rfl (.here ⟨rfl, rfl, rfl, rfl⟩)
  have hok : Run.passes (fun _ _ => true) (Optimizer.bare.optimize e s) = true := by decide +kernel
  obtain ⟨r, s', hrun, _⟩ := Run.exists_of_passes hok
  refine ⟨identified, sound, rfl, r, s', hrun, ?_⟩
  exact (never_null_folded_to_null .empty Registry.empty.natives .standard evaluators_sound e s identified sound defaults rfl
    r s' hrun).2 (by decide) carries

/-- The default instance of the integers with null is never null, and is folded to a null. -/
theorem default_instance_folded_to_null :
    let e := (Expr.newValue (.nullable .int) ⟨0⟩).1
    let s : Progress Console := ⟨⟨1⟩, ⟨⟨0⟩, .empty⟩, .empty⟩
    e.isNeverNull = true ∧ ∃ r s', Optimizer.bare.optimize e s = .ok r s' ∧ r.isAlwaysNull = true := by
  intro e s
  have hok : Run.passes (fun r _ => r.isAlwaysNull) (Optimizer.bare.optimize e s) = true := by decide +kernel
  exact ⟨rfl, Run.exists_of_passes hok⟩

end TypedTree
