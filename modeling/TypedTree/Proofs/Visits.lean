import TypedTree.Proofs.Rules

/-!
# Visits

What a visit of a tree may make of it. `Visits o cx e r` is built along the tree: a node that the hooks keep is left
alone; any other node gets the visited sub-expressions, and then a step settles it, or inlining makes a new tree of it
that is visited in its turn. No state appears in this relation, so that whatever is to be known of the results is proved by
induction on it, with one case for each of the three.

Predicates that hold of all nodes of a tree are made by `Expr.All`, and `Retyped.all` says when retyping keeps them.
-/

namespace TypedTree

/-- The predicate holds of all nodes of the tree. -/
inductive Expr.All (P : Expr → Prop) : Expr → Prop where
  | node {e : Expr} : P e → (∀ c ∈ e.form.children, All P c) → All P e

namespace Expr.All

variable {P Q : Expr → Prop} {e c : Expr}

theorem here (h : e.All P) : P e := by
  cases h
  assumption

theorem child (h : e.All P) (hc : c ∈ e.form.children) : c.All P := by
  cases h with
  | node _ h => exact h c hc

theorem mono (h : e.All P) (hPQ : ∀ a, P a → Q a) : e.All Q := by
  induction h with
  | node h _ ih => exact .node (hPQ _ h) ih

end Expr.All

/-! ### Retyping -/

/-- Nodes of the form may have any type, whatever their parts; constants, which have to fit their type, are not meant. -/
def Form.isUntyped {α : Type} : Form α → Bool
  | .defaultOf | .convert _ | .throw _ | .block .. | .jump .. => true
  | _ => false

/-- What `P` says of a node, it says of the node with the type `ty` too, and of what may be put around it. -/
structure KeptByRetyping (P : Expr → Prop) (ty : Ty) : Prop where
  constant {a b : Expr} {value : Value} : P a → a.form = .constant value → value.isCompatible ty = true → b.ty = ty →
    b.form = .constant value → P b
  conditional {a b test whenTrue whenFalse whenTrue' whenFalse' : Expr} : P a →
    a.form = .conditional test whenTrue whenFalse → whenTrue'.ty = ty → whenFalse'.ty = ty → b.ty = ty →
    b.form = .conditional test whenTrue' whenFalse' → P b
  untyped {b : Expr} : b.ty = ty → b.form.isUntyped = true → P b

/-- **Retyping** a tree keeps what is said of all its nodes. -/
theorem Retyped.all {P : Expr → Prop} {ty : Ty} {e r : Expr} (h : Retyped ty e r) (hP : KeptByRetyping P ty)
    (he : e.All P) : r.All P := by
  induction h with
  | same => exact he
  | constant _ hf hfits hty hr => exact .node (hP.constant he.here hf hfits hty hr) (by simp [hr, Form.children])
  | defaultOf _ _ _ hty hr => exact .node (hP.untyped hty (by rw [hr]; rfl)) (by simp [hr, Form.children])
  | throw _ hf hty hr | jump _ hf hty hr =>
    refine .node (hP.untyped hty (by rw [hr]; rfl)) fun c hc => he.child ?_
    rw [hf]
    rwa [hr] at hc
  | conditional _ hf ha hb _ hty hr iha ihb =>
    have hparts : ∀ c ∈ _, Expr.All P c := fun c hc => he.child (hf ▸ hc)
    simp only [Form.children, List.mem_cons, List.not_mem_nil, or_false, forall_eq_or_imp, forall_eq] at hparts
    refine .node (hP.conditional he.here hf ha.ty_eq hb.ty_eq hty hr) ?_
    rw [hr]
    simpa [Form.children] using ⟨hparts.1, iha hparts.2.1, ihb hparts.2.2⟩
  | block _ hf _ hty hr ih =>
    have hparts : ∀ c ∈ _, Expr.All P c := fun c hc => he.child (hf ▸ hc)
    simp only [Form.children, List.mem_append, List.mem_singleton, or_imp, forall_and, forall_eq] at hparts
    refine .node (hP.untyped hty (by rw [hr]; rfl)) ?_
    rw [hr]
    simp only [Form.children, List.mem_append, List.mem_singleton, or_imp, forall_and, forall_eq]
    exact ⟨hparts.1, ih hparts.2⟩
  | discarded _ _ _ hty hr | converted _ _ _ hty hr =>
    refine .node (hP.untyped hty (by rw [hr]; rfl)) ?_
    rw [hr]
    exact List.forall_mem_singleton.2 he

/-! ### Contexts -/

namespace Facts

variable (facts : Facts) {α β : Type}

theorem map_fst_argContexts (member : Option Member) (args : List α) :
    (facts.argContexts member args).map (·.1) = args := by
  rw [argContexts, List.map_map]
  exact List.zipIdx_map_fst 0 args

theorem map_fst_inContext (cx : Context) (form : Form α) : (facts.inContext cx form).map (·.1) = form := by
  cases form <;> simp [inContext, Form.map, Case.map, Clause.map, Function.comp_def, map_fst_argContexts]

theorem mem_of_inContext {cx : Context} {form : Form α} {p : α × Context} (hp : p ∈ (facts.inContext cx form).children) :
    p.1 ∈ form.children := by
  rw [← facts.map_fst_inContext cx form, Form.children_map]
  exact List.mem_map_of_mem hp

theorem argContexts_map (f : α → β) (member : Option Member) (args : List α) :
    facts.argContexts member (args.map f) = (facts.argContexts member args).map fun p => (f p.1, p.2) := by
  simp [argContexts, List.zipIdx_map, Function.comp_def]

theorem inContext_map (cx : Context) (f : α → β) (form : Form α) :
    facts.inContext cx (form.map f) = (facts.inContext cx form).map fun p => (f p.1, p.2) := by
  cases form <;> simp [inContext, Form.map, Case.map, Clause.map, Function.comp_def, argContexts_map]

/-- A form that corresponds to one with contexts corresponds to the form. -/
theorem rel_of_inContext {cx : Context} {f : Form α} {g : Form β} {R : α × Context → β → Prop}
    (h : Form.Rel R (facts.inContext cx f) g) : Form.Rel (fun a b => ∃ cx, R (a, cx) b) f g := by
  have hfst : Form.Rel (fun p b => ∃ cx, R (p.1, cx) b) (facts.inContext cx f) g := h.mono fun p _ hR => ⟨p.2, hR⟩
  rw [← facts.map_fst_inContext cx f]
  exact hfst.map_left

end Facts

/-! ### The relation -/

namespace Optimizer

variable {σ κ : Type} (o : Optimizer σ κ)

/-- A visit of `e` in the context `cx` may give `r`. -/
inductive Visits : Context → Expr → Expr → Prop where
  /-- The hooks keep the node. -/
  | skipped {cx : Context} {e : Expr} {w : World σ} : (o.hooks.admits e w).1 = false → Visits cx e e
  /-- The node `n` has the visited sub-expressions, and a step makes `r` of it. -/
  | settled {cx : Context} {e n r : Expr} {R : Expr × Context → Expr → Prop} :
      (∀ p c, R p c → Visits p.2 p.1 c) → Form.Rel R (o.facts.inContext cx e.form) n.form → n.ty = e.ty →
      (∃ st : Store, n ∈ st ∧ r ∈ st) → o.Step n cx r → Visits cx e r
  /-- The node `n` has the visited sub-expressions, and a visit of what inlining makes of it gives `r`. -/
  | inlined {cx : Context} {e n reduced r : Expr} {R : Expr × Context → Expr → Prop} :
      (∀ p c, R p c → Visits p.2 p.1 c) → Form.Rel R (o.facts.inContext cx e.form) n.form → n.ty = e.ty →
      o.Inlines n reduced → Visits cx reduced r → Visits cx e r

end Optimizer

/-! ### Where the parts of a step come from -/

namespace Optimizer

variable {σ κ : Type} {o : Optimizer σ κ} {n : Expr}

theorem Chooses.mem {b : Expr} (h : o.Chooses n b) : b ∈ n.form.children := by
  cases h with
  | conditional hf => rw [hf]; split <;> simp [Form.children]
  | logical hf => rw [hf]; split <;> simp [Form.children]
  | case hf _ ht =>
    rw [hf]
    exact (mem_of_caseTests (by rw [ht]; exact List.mem_append_right _ List.mem_cons_self)).2
  | fallback hf => rw [hf]; simp [Form.children]
  | body hf => rw [hf]; simp [Form.children]

/-- The throw in the place of a node is one of its sub-expressions, or the body of a function literal that it invokes. -/
theorem Throws.mem {t : Expr} (h : o.Throws n t) :
    t ∈ n.form.children ∨ ∃ callee args params, n.form = .invoke callee args ∧ callee.form = .lambda params t ∧
      ∀ x ∈ params, ¬ Free x t := by
  cases h with
  | operand hf => exact .inl (Form.mem_children_of_operands (by rw [hf]; simp))
  | conditional hf | logical hf | switch hf | typeTest hf | convert hf => exact .inl (by rw [hf]; simp [Form.children])
  | caseTest hf _ ht =>
    rw [hf]
    exact .inl (mem_of_caseTests (by rw [ht]; exact List.mem_append_right _ List.mem_cons_self)).1
  | body hf hc hx => exact .inr ⟨_, _, _, hf, hc, hx⟩

theorem Throws.all {P : Expr → Prop} {t : Expr} (h : o.Throws n t) (hn : ∀ c ∈ n.form.children, c.All P) : t.All P := by
  obtain ht | ⟨callee, args, params, hf, hc, _⟩ := h.mem
  · exact hn t ht
  · have hcallee : callee.All P := hn callee (by rw [hf]; exact List.mem_cons_self)
    exact hcallee.child (by rw [hc]; exact List.mem_cons_self)

theorem Throws.throws {t : Expr} (h : o.Throws n t) : o.facts.alwaysThrows t = true := by
  cases h <;> assumption

end Optimizer

/-- What a catalog calls throwing is a throw. -/
theorem Catalog.throw_of_alwaysThrows {c : Catalog} {t : Expr} (h : c.facts.alwaysThrows t = true) :
    ∃ exception, t.form = .throw exception := by
  change t.isThrow = true at h
  unfold Expr.isThrow at h
  split at h
  · next exception hf => exact ⟨exception, hf⟩
  · cases h

end TypedTree
