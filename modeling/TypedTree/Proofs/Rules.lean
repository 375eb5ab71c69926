import TypedTree.Proofs.Rules.Branches
import TypedTree.Proofs.Rules.Handlers
import TypedTree.Proofs.Rules.Invocation
import TypedTree.Proofs.Rules.Members
import TypedTree.Proofs.Rules.TypeTests

/-!
# What the rules do

Every rule does one of the steps of `Optimizer.Step`, or inlines and leaves the rest to the visit of what it made
(`Optimizer.rule_reaches`). There is one lemma for each rule, and one for each of the parts that rules share.
-/

namespace TypedTree.Optimizer

open Store

variable {σ κ : Type} {o : Optimizer σ κ} {E : Halt → Prop} {st : Store} {cx : Context} {n : Expr}
variable (hE : ∀ fault, E (.fault fault))

include hE

/-- **The rules**: what the rule for an existing node gives is what a step makes of the node, or what `again` gives for a
tree that inlining made of it. -/
theorem rule_reaches (hn : n ∈ st) {again : Expr → Context → Run σ Expr} {A : Store → Expr → Expr → Prop}
    (hagain : ∀ st' reduced, st ≤ st' → reduced ∈ st' → o.Inlines n reduced →
      (o.logic E).reaches st' (again reduced cx) fun st'' r => A st'' reduced r) :
    (o.logic E).reaches st (o.rule again n cx) (o.Settled cx n A) := by
  have hsettled : ∀ {x}, (∀ again, o.rule again n cx = x) →
      ((∀ again, o.rule again n cx = x) → (o.logic E).reaches st x (o.Settles cx n)) →
      (o.logic E).reaches st (o.rule again n cx) (o.Settled cx n A) := by
    intro x hrule hx
    rw [hrule]
    exact (o.logic E).ofImp (hx hrule) fun _ _ _ => .inl
  have hkept : (∀ again, o.rule again n cx = pure n) →
      (o.logic E).reaches st (o.rule again n cx) (o.Settled cx n A) :=
    fun h => hsettled h fun h => reaches_kept hn fun _ => quiet_of_pure h
  have hmem : ∀ {e}, e ∈ n.form.children → e ∈ st := child hn
  cases hform : n.form with
  | constant _ | var _ | defaultOf | lambda _ _ | throw _ | block _ _ | jump _ _ _ =>
    exact hkept fun again => by rw [rule, hform]
  | convert operand =>
    exact hsettled (fun again => by rw [rule, hform]) (convert_reaches hE hn hform)
  | call receiver method args =>
    refine hsettled (fun again => by rw [rule, hform])
      (useMember_reaches hE hn (by rw [hform]; rfl) (fun e he => hmem (by rw [hform]; exact he)) ?_)
    rw [hform]
    cases receiver with
    | none => exact .inl ⟨rfl, rfl⟩
    | some r => exact .inr rfl
  | access receiver member =>
    refine hsettled (fun again => by rw [rule, hform]) (useMember_reaches hE hn (by rw [hform]; simp [Form.operands])
      (fun e he => hmem (by rw [hform]; simpa [Form.children] using he)) (.inr ?_))
    rw [hform]
    rfl
  | new constructor args =>
    exact hsettled (fun again => by rw [rule, hform]) (newInstance_reaches hE hn hform)
  | newArray element source items =>
    exact hsettled (fun again => by rw [rule, hform]) (newArray_reaches hE hn hform)
  | index receiver indexer args assigned =>
    cases assigned with
    | true => exact hkept fun again => by rw [rule, hform]; rfl
    | false =>
      exact hsettled (fun again => by rw [rule, hform]; rfl) (readElement_reaches hE hn hform)
  | invoke callee args =>
    have hrule : ∀ again, o.rule again n cx = o.invoke again n callee args cx := fun again => by rw [rule, hform]
    by_cases hcallee : ∃ params body, callee.form = .lambda params body
    · obtain ⟨params, body, hcallee⟩ := hcallee
      have hrule : ∀ again, o.rule again n cx = o.invokeLiteral again n params body args cx :=
        fun again => by rw [hrule, invoke, hcallee]
      rw [hrule]
      exact invokeLiteral_reaches hE hn hform hcallee hagain hrule
    · have hcallee : ∀ params body, callee.form ≠ .lambda params body := fun p b h => hcallee ⟨p, b, h⟩
      have hrule : ∀ again, o.rule again n cx = o.invokeDelegate n callee args cx := by
        intro again
        rw [hrule, invoke]
        split
        · next h => exact absurd h (hcallee _ _)
        · rfl
      exact hsettled hrule (invokeDelegate_reaches hE hn hform hcallee)
  | conditional test whenTrue whenFalse =>
    exact hsettled (fun again => by rw [rule, hform]) (conditional_reaches hE hn hform)
  | logical op left right =>
    exact hsettled (fun again => by rw [rule, hform]) (logical_reaches hE hn hform)
  | switch value comparison cases fallback =>
    exact hsettled (fun again => by rw [rule, hform]) (switch_reaches hE hn hform)
  | typeTest operand target mode =>
    exact hsettled (fun again => by rw [rule, hform]) (typeTest_reaches hE hn hform)
  | tryCatch body clauses cleanup onFault =>
    exact hsettled (fun again => by rw [rule, hform]) (tryCatch_reaches hE hn hform)

end TypedTree.Optimizer
