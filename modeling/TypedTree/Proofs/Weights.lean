import TypedTree.Proofs.Lambdas

/-!
# Trees that get simpler

Rules take away calls, choices, handlers and the like. They may add blocks and conversions, but conversions only where they
take something else away. So trees are weighed twice: by the work that is left in them (`Expr.work`), and by their conversions.
A tree is simpler than another one when there is less work in it, or as much and fewer conversions (`Expr.Simpler`). Merging two
conditionals leaves one conditional and one connective, which is why a conditional weighs more than anything else.
-/

namespace TypedTree

/-! ### Weights -/

/-- The sum of a weight over all nodes of a tree. -/
def Expr.weigh (weight : Form Expr → Nat) (e : Expr) : Nat :=
  recurse (fun e form () => weight e.form + (form.map (·.2 ())).sum) e ()

theorem Expr.weigh_eq (weight : Form Expr → Nat) (e : Expr) :
    e.weigh weight = weight e.form + (e.form.children.map (weigh weight)).sum := by
  rw [← Form.sum_map]
  conv_lhs => rw [weigh, recurse_eq]
  simp only [Form.map_map]
  rfl

/-- What the clause may still lose besides its parts: its binding and its filter. -/
def Clause.extras {α : Type} (c : Clause α) : Nat := c.binding.toList.length + c.filter.toList.length

/-- How much work a node is by itself. -/
def Form.work {α : Type} : Form α → Nat
  | .constant _ | .var _ | .defaultOf | .convert _ | .lambda _ _ | .throw _ | .block _ _ | .jump _ _ _ => 0
  | .call _ _ _ | .access _ _ | .new _ _ | .newArray _ _ _ | .index _ _ _ _ | .invoke _ _ | .logical _ _ _
  | .switch _ _ _ _ | .typeTest _ _ _ => 1
  | .conditional _ _ _ => 2
  | .tryCatch _ clauses _ _ => 1 + (clauses.map Clause.extras).sum

/-- How many conversions a node is by itself. -/
def Form.conversions {α : Type} : Form α → Nat
  | .convert _ => 1
  | _ => 0

/-- The work that is left in a tree. -/
def Expr.work (e : Expr) : Nat := e.weigh Form.work

/-- The conversions in a tree. -/
def Expr.conversions (e : Expr) : Nat := e.weigh Form.conversions

/-- The work that is left in a clause. -/
def Clause.work (c : Clause Expr) : Nat := c.extras + (c.children.map Expr.work).sum

/-- There is less work in `r` than in `e`, or as much and there are fewer conversions. -/
def Expr.Simpler (r e : Expr) : Prop := r.work < e.work ∨ r.work = e.work ∧ r.conversions < e.conversions

section

variable {a e n r c : Expr}

theorem Expr.Simpler.trans (h : r.Simpler n) (h' : n.Simpler e) : r.Simpler e := by
  unfold Simpler at *
  omega

theorem Expr.Simpler.ne (h : r.Simpler e) : r ≠ e := by
  rintro rfl
  unfold Simpler at h
  omega

theorem Form.Rel.work_eq {α β : Type} {R : α → β → Prop} {f : Form α} {g : Form β} (h : Form.Rel R f g) :
    f.work = g.work := by
  cases h with
  | tryCatch _ hs _ _ =>
    have hclauses : List.Forall₂ (fun c d => Clause.extras c = Clause.extras d) _ _ := hs.imp fun c d h => by
      rw [Clause.extras, Clause.extras, h.binding, (forall₂_toList h.filter).length_eq]
    have heq := forall₂_map hclauses
    rw [List.forall₂_eq_eq_eq] at heq
    simp only [work, heq]
  | _ => rfl

theorem Form.Rel.conversions_eq {α β : Type} {R : α → β → Prop} {f : Form α} {g : Form β} (h : Form.Rel R f g) :
    f.conversions = g.conversions := by
  cases h <;> rfl

theorem Expr.work_of_form {form : Form Expr} (h : e.form = form) : e.work = form.work + (form.children.map work).sum := by
  rw [work, weigh_eq, h]
  rfl

theorem Clause.sum_work (clauses : List (Clause Expr)) : (clauses.map work).sum =
    (clauses.map extras).sum + ((clauses.flatMap children).map Expr.work).sum := by
  induction clauses with
  | nil => rfl
  | cons c clauses ih =>
    simp only [List.map_cons, List.sum_cons, List.flatMap_cons, List.map_append, List.sum_append, ih]
    rw [work]
    omega

theorem Expr.work_of_tryCatch {body : Expr} {clauses : List (Clause Expr)} {cleanup onFault : Option Expr}
    (h : e.form = .tryCatch body clauses cleanup onFault) :
    e.work = 1 + body.work + (clauses.map Clause.work).sum + (cleanup.toList.map work).sum +
      (onFault.toList.map work).sum := by
  simp only [work_of_form h, Form.work, Form.children, Clause.sum_work, List.map_cons, List.map_append, List.sum_cons,
    List.sum_append]
  omega

theorem Expr.conversions_of_form {form : Form Expr} (h : e.form = form) :
    e.conversions = form.conversions + (form.children.map conversions).sum := by
  rw [conversions, weigh_eq, h]
  rfl

theorem Expr.work_child (hc : c ∈ e.form.children) : e.form.work + c.work ≤ e.work := by
  have hsum : c.work ≤ (e.form.children.map work).sum := List.le_sum_of_mem (List.mem_map_of_mem hc)
  rw [work_of_form (e := e) rfl]
  omega

theorem Expr.conversions_child (hc : c ∈ e.form.children) : e.form.conversions + c.conversions ≤ e.conversions := by
  have hsum : c.conversions ≤ (e.form.children.map conversions).sum := List.le_sum_of_mem (List.mem_map_of_mem hc)
  rw [conversions_of_form (e := e) rfl]
  omega

theorem Expr.IsLeaf.work_eq (h : r.IsLeaf) : r.work = 0 := by
  cases h with
  | constant hf | defaultOf hf => rw [work_of_form hf]; rfl
  | throw hf hc => simp [work_of_form hf, work_of_form hc, Form.work, Form.children]

theorem Expr.IsLeaf.conversions_eq (h : r.IsLeaf) : r.conversions = 0 := by
  cases h with
  | constant hf | defaultOf hf => rw [conversions_of_form hf]; rfl
  | throw hf hc => simp [conversions_of_form hf, conversions_of_form hc, Form.conversions, Form.children]

/-- A leaf is simpler than a node with work of its own or a conversion. -/
theorem Expr.IsLeaf.simpler (h : r.IsLeaf) (hn : 0 < n.form.work + n.form.conversions) : r.Simpler n := by
  have hwork : n.work = _ := work_of_form rfl
  have hconversions : n.conversions = _ := conversions_of_form rfl
  have hr : r.work = 0 ∧ r.conversions = 0 := ⟨h.work_eq, h.conversions_eq⟩
  unfold Simpler
  omega

/-! ### Retyping and substitution -/

/-- Retyping leaves the work as it is. -/
theorem Retyped.work_eq {ty : Ty} (h : Retyped ty e r) : r.work = e.work := by
  induction h with
  | same => rfl
  | constant _ hf _ _ hr | defaultOf _ hf _ _ hr | throw _ hf _ hr | jump _ hf _ hr =>
    rw [Expr.work_of_form hr, Expr.work_of_form hf]
  | conditional _ hf _ _ _ _ hr iha ihb =>
    simp [Expr.work_of_form hr, Expr.work_of_form hf, Form.work, Form.children, iha, ihb]
  | block _ hf _ _ hr ih =>
    simp [Expr.work_of_form hr, Expr.work_of_form hf, Form.work, Form.children, ih]
  | discarded _ _ _ _ hr | converted _ _ _ _ hr => simp [Expr.work_of_form hr, Form.work, Form.children]

theorem work_le_of_rel {R : Expr → Expr → Prop} (hrel : Form.Rel R e.form n.form)
    (hR : ∀ a b, R a b → b.work ≤ a.work) : n.work ≤ e.work := by
  have hchildren : List.Forall₂ (· ≤ ·) (n.form.children.map Expr.work) (e.form.children.map Expr.work) := by
    refine forall₂_map ?_
    exact (hrel.children.imp hR).flip
  rw [Expr.work_of_form (e := n) rfl, Expr.work_of_form (e := e) rfl, hrel.work_eq]
  exact Nat.add_le_add_left hchildren.sum_le_sum _

/-- The substitution of literals adds no work. -/
theorem Substituted.work_le {s : Substitution} (h : Substituted s e r) (hs : ∀ p ∈ s, p.2.work = 0) :
    r.work ≤ e.work := by
  induction h with
  | done => exact le_rfl
  | @var s e x hf =>
    cases hl : s.lookup x with
    | none => exact le_rfl
    | some a =>
      obtain ⟨_, _, hs', _⟩ := List.lookup_eq_some_iff.1 hl
      have ha : a.work = 0 := hs (x, a) (by simp [hs'])
      simp [ha]
  | node _ _ hrel _ ih =>
    refine work_le_of_rel (Form.rel_of_scoped hrel) ?_
    rintro a b ⟨bound, hR⟩
    exact ih _ _ hR fun p hp => hs p (List.mem_of_mem_filter hp)

end

end TypedTree
