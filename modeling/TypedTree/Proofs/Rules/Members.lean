import TypedTree.Proofs.Rules.Basic

/-!
# Rules for members, instances and arrays

A use of a member over known operands is folded to its outcome, a dereferenced null or a throwing operand to a throw; in all
other cases the node is kept.
-/

namespace TypedTree.Optimizer

open Store

variable {σ κ : Type} {o : Optimizer σ κ} {E : Halt → Prop} {st : Store} {cx : Context} {n : Expr}
variable (hE : ∀ fault, E (.fault fault))

include hE

theorem useMember_reaches (hn : n ∈ st) {receiver : Option Expr} {m : Member} {args : List Expr}
    (hops : n.form.operands = receiver.toList ++ args) (hmem : ∀ e ∈ receiver.toList ++ args, e ∈ st)
    (hkind : (receiver = none ∧ n.form = .call none m args) ∨ n.form.isComputed = true)
    (hrule : ∀ again, o.rule again n cx = o.useMember n receiver m args cx) :
    (o.logic E).reaches st (o.useMember n receiver m args cx) (o.Settles cx n) := by
  by_cases h₁ : (Operands.analyze o.facts (receiver.toList ++ args)).throws = true
  · simp only [useMember, h₁, if_true]
    exact propagateThrow_reaches hE hops hmem h₁
  by_cases h₂ : o.dereferencesNull receiver (Operands.analyze o.facts (receiver.toList ++ args)) = true
  · simp only [useMember, h₁, h₂, if_true, if_false, Bool.false_eq_true]
    cases receiver with
    | none => simp [dereferencesNull] at h₂
    | some r =>
      obtain ⟨hr, _⟩ | hcomputed := hkind
      · cases hr
      · exact predictNull_reaches hcomputed (List.ne_nil_of_mem (Form.mem_children_of_operands (e := r) (by simp [hops])))
  by_cases h₃ : ((Operands.analyze o.facts (receiver.toList ++ args)).allKnown && o.facts.isPureMember m &&
      o.mayFold n.ty cx) = true
  · have heq : o.useMember n receiver m args cx =
        o.runMember n m (Operands.analyze o.facts (receiver.toList ++ args)).values := by
      simp only [useMember, h₁, h₂, h₃, if_true, if_false, Bool.false_eq_true]
    rw [heq]
    simp only [Bool.and_eq_true] at h₃
    have hknown : o.facts.Knows n.form.operands (Operands.analyze o.facts (receiver.toList ++ args)).values := by
      rw [hops]
      exact Operands.analyze_known (by simpa using h₁) h₃.1.1
    refine member_reaches hE hn hknown ?_ fun again => (hrule again).trans heq
    obtain ⟨rfl, hform⟩ | hcomputed := hkind
    · exact .inl ⟨args, hform⟩
    · exact .inr hcomputed
  · exact reaches_kept_of_eq hn hrule (by simp only [useMember, h₁, h₂, h₃, if_false, Bool.false_eq_true])

theorem newInstance_reaches (hn : n ∈ st) {constructor : Option Member} {args : List Expr}
    (hform : n.form = .new constructor args)
    (hrule : ∀ again, o.rule again n cx = o.newInstance n constructor args cx) :
    (o.logic E).reaches st (o.newInstance n constructor args cx) (o.Settles cx n) := by
  have hops : n.form.operands = args := by rw [hform]; rfl
  have hmem : ∀ e ∈ args, e ∈ st := fun e he => child hn (by rw [hform]; exact he)
  have hcomputed : n.form.isComputed = true := by rw [hform]; rfl
  by_cases h₁ : (Operands.analyze o.facts args).throws = true
  · simp only [newInstance, h₁, if_true]
    exact propagateThrow_reaches hE hops hmem h₁
  by_cases h₂ : ((Operands.analyze o.facts args).allKnown && o.mayFold n.ty cx) = true
  · have hknown : o.facts.Knows n.form.operands (Operands.analyze o.facts args).values := by
      rw [hops]
      exact Operands.analyze_known (by simpa using h₁) (Bool.and_eq_true_iff.1 h₂).1
    cases constructor with
    | some m =>
      by_cases h₃ : o.facts.isPureMember m = true
      · have heq : o.newInstance n (some m) args cx = o.runMember n m (Operands.analyze o.facts args).values := by
          simp only [newInstance, h₁, h₂, h₃, if_true, if_false, Bool.false_eq_true]
        rw [heq]
        exact member_reaches hE hn hknown (.inr hcomputed) fun again => (hrule again).trans heq
      · exact reaches_kept_of_eq hn hrule
          (by simp only [newInstance, h₁, h₂, h₃, if_true, if_false, Bool.false_eq_true])
    | none =>
      by_cases h₃ : o.facts.isPureType n.ty = true
      · have heq : o.newInstance n none args cx = liftM n.foldDefault >>= foldTo n := by
          simp only [newInstance, h₁, h₂, h₃, if_true, if_false, Bool.false_eq_true]
        rw [heq]
        exact foldTo_reaches hn (finds_default hform) hcomputed fun again => (hrule again).trans heq
      · exact reaches_kept_of_eq hn hrule
          (by simp only [newInstance, h₁, h₂, h₃, if_true, if_false, Bool.false_eq_true])
  · exact reaches_kept_of_eq hn hrule (by simp only [newInstance, h₁, h₂, if_false, Bool.false_eq_true])

theorem newArray_reaches (hn : n ∈ st) {element : Ty} {source : ArraySource} {items : List Expr}
    (hform : n.form = .newArray element source items)
    (hrule : ∀ again, o.rule again n cx = o.newArray n element source items cx) :
    (o.logic E).reaches st (o.newArray n element source items cx) (o.Settles cx n) := by
  have hops : n.form.operands = items := by rw [hform]; rfl
  have hmem : ∀ e ∈ items, e ∈ st := fun e he => child hn (by rw [hform]; exact he)
  have hcomputed : n.form.isComputed = true := by rw [hform]; rfl
  by_cases h₁ : (Operands.analyze o.facts items).throws = true
  · simp only [newArray, h₁, if_true]
    exact propagateThrow_reaches hE hops hmem h₁
  by_cases h₂ : ((Operands.analyze o.facts items).allKnown && o.mayFold n.ty cx) = true
  · have hknown := Operands.analyze_known (by simpa using h₁) (Bool.and_eq_true_iff.1 h₂).1
    cases source with
    | items =>
      have heq : o.newArray n element .items items cx =
          liftM (n.foldItems element (Operands.analyze o.facts items).values o.settings.arrayLimit) >>= foldTo n := by
        simp only [newArray, h₁, h₂, if_true, if_false, Bool.false_eq_true]
      rw [heq]
      exact foldTo_reaches hn (finds_items hform hknown _) hcomputed fun again => (hrule again).trans heq
    | bounds =>
      have heq : o.newArray n element .bounds items cx =
          liftM (n.foldBounds element (Operands.analyze o.facts items).values o.settings.arrayLimit) >>= foldTo n := by
        simp only [newArray, h₁, h₂, if_true, if_false, Bool.false_eq_true]
      rw [heq]
      exact foldTo_reaches hn (finds_bounds hform hknown.length_eq _) hcomputed fun again => (hrule again).trans heq
  · exact reaches_kept_of_eq hn hrule (by simp only [newArray, h₁, h₂, if_false, Bool.false_eq_true])

theorem readElement_reaches (hn : n ∈ st) {receiver : Expr} {indexer : Option Member} {args : List Expr}
    (hform : n.form = .index receiver indexer args false)
    (hrule : ∀ again, o.rule again n cx = o.readElement n receiver indexer args cx) :
    (o.logic E).reaches st (o.readElement n receiver indexer args cx) (o.Settles cx n) := by
  have hops : n.form.operands = receiver :: args := by rw [hform]; rfl
  have hmem : ∀ e ∈ receiver :: args, e ∈ st := fun e he => child hn (by rw [hform]; exact he)
  have hcomputed : n.form.isComputed = true := by rw [hform]; rfl
  by_cases h₁ : (Operands.analyze o.facts (receiver :: args)).throws = true
  · simp only [readElement, h₁, if_true]
    exact propagateThrow_reaches hE hops hmem h₁
  by_cases h₂ : o.dereferencesNull (some receiver) (Operands.analyze o.facts (receiver :: args)) = true
  · simp only [readElement, h₁, h₂, if_true, if_false, Bool.false_eq_true]
    exact predictNull_reaches hcomputed (by rw [hform]; exact List.cons_ne_nil _ _)
  by_cases h₃ : ((Operands.analyze o.facts (receiver :: args)).allKnown && o.settings.folding) = true
  · have hknown := Operands.analyze_known (by simpa using h₁) (Bool.and_eq_true_iff.1 h₃).1
    cases indexer with
    | none =>
      cases hv : (Operands.analyze o.facts (receiver :: args)).values with
      | nil =>
        exact reaches_kept_of_eq hn hrule
          (by simp only [readElement, h₁, h₂, h₃, hv, if_true, if_false, Bool.false_eq_true])
      | cons array indices =>
        have heq : o.readElement n receiver none args cx = liftM (n.foldElement array indices) >>= foldTo n := by
          simp only [readElement, h₁, h₂, h₃, hv, if_true, if_false, Bool.false_eq_true]
        rw [heq]
        rw [hv] at hknown
        obtain ⟨hreceiver, _⟩ := List.forall₂_cons.1 hknown
        exact foldTo_reaches hn (finds_element hform hreceiver indices) hcomputed fun again => (hrule again).trans heq
    | some m =>
      by_cases h₄ : (o.facts.isPureMember m && o.mayFold n.ty cx) = true
      · have heq : o.readElement n receiver (some m) args cx =
            o.runMember n m (Operands.analyze o.facts (receiver :: args)).values := by
          simp only [readElement, h₁, h₂, h₃, h₄, if_true, if_false, Bool.false_eq_true]
        rw [heq]
        exact member_reaches hE hn (by rwa [hops]) (.inr hcomputed) fun again => (hrule again).trans heq
      · exact reaches_kept_of_eq hn hrule
          (by simp only [readElement, h₁, h₂, h₃, h₄, if_true, if_false, Bool.false_eq_true])
  · exact reaches_kept_of_eq hn hrule (by simp only [readElement, h₁, h₂, h₃, if_false, Bool.false_eq_true])

end TypedTree.Optimizer
