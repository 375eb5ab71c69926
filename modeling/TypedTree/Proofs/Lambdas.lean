import Mathlib.Algebra.Order.BigOperators.Group.List
import Mathlib.Algebra.Order.Ring.Nat
import TypedTree.Proofs.Visits

/-!
# Function literals

No step adds a function literal, and inlining takes one away: its parameters are replaced by constants, which have none.
So a tree that inlining makes has fewer function literals than the invocation it was made of (`Inlines.lambdaCount_lt`),
also when the sub-expressions of that invocation were visited before (`Visits.lambdaCount_le`), and the function literals
of a tree bound how deeply visits are nested below it.
-/

namespace TypedTree

/-- How many function literals the node itself is. -/
def Form.lambdas {α : Type} : Form α → Nat
  | .lambda _ _ => 1
  | _ => 0

theorem Form.Rel.lambdas_eq {α β : Type} {R : α → β → Prop} {f : Form α} {g : Form β} (h : Form.Rel R f g) :
    f.lambdas = g.lambdas := by
  cases h <;> rfl

section

variable {e n r c : Expr}

theorem Form.sum_map {α : Type} (f : α → Nat) (form : Form α) : (form.map f).sum = (form.children.map f).sum := by
  rw [Form.sum, Form.children_map]
  rfl

theorem Expr.lambdaCount_eq (e : Expr) :
    e.lambdaCount = e.form.lambdas + (e.form.children.map lambdaCount).sum := by
  have hsum : ∀ form : Form Expr, ((form.map fun c => (c, fun () => c.lambdaCount)).map (·.2 ())).sum =
      (form.children.map lambdaCount).sum := by
    intro form
    rw [Form.map_map]
    exact Form.sum_map _ form
  rw [lambdaCount, recurse_eq]
  cases e.form with
  | lambda => rfl
  | _ => exact (hsum _).trans (Nat.zero_add _).symm

theorem Expr.lambdaCount_of_form {form : Form Expr} (h : e.form = form) :
    e.lambdaCount = form.lambdas + (form.children.map lambdaCount).sum := by
  rw [lambdaCount_eq, h]

theorem Expr.lambdaCount_child (hc : c ∈ e.form.children) : c.lambdaCount ≤ e.lambdaCount := by
  rw [e.lambdaCount_eq]
  exact (List.le_sum_of_mem (List.mem_map_of_mem hc)).trans (Nat.le_add_left _ _)

theorem lambdaCount_le_of_rel {R : Expr → Expr → Prop} (hrel : Form.Rel R e.form n.form)
    (hR : ∀ a b, R a b → b.lambdaCount ≤ a.lambdaCount) : n.lambdaCount ≤ e.lambdaCount := by
  have hchildren : List.Forall₂ (· ≤ ·) (n.form.children.map Expr.lambdaCount) (e.form.children.map Expr.lambdaCount) := by
    refine forall₂_map ?_
    exact (hrel.children.imp hR).flip
  rw [n.lambdaCount_eq, e.lambdaCount_eq, hrel.lambdas_eq]
  exact Nat.add_le_add_left hchildren.sum_le_sum _

theorem Expr.IsLeaf.lambdaCount_eq (h : r.IsLeaf) : r.lambdaCount = 0 := by
  cases h with
  | constant hf | defaultOf hf => rw [lambdaCount_of_form hf]; rfl
  | throw hf hc => simp [lambdaCount_of_form hf, lambdaCount_of_form hc, Form.lambdas, Form.children]

theorem Retyped.lambdaCount_eq {ty : Ty} (h : Retyped ty e r) : r.lambdaCount = e.lambdaCount := by
  induction h with
  | same => rfl
  | constant _ hf _ _ hr | defaultOf _ hf _ _ hr | throw _ hf _ hr | jump _ hf _ hr =>
    rw [Expr.lambdaCount_of_form hr, Expr.lambdaCount_of_form hf]
  | conditional _ hf _ _ _ _ hr iha ihb =>
    simp [Expr.lambdaCount_of_form hr, Expr.lambdaCount_of_form hf, Form.lambdas, Form.children, iha, ihb]
  | block _ hf _ _ hr ih =>
    simp [Expr.lambdaCount_of_form hr, Expr.lambdaCount_of_form hf, Form.lambdas, Form.children, ih]
  | discarded _ _ _ _ hr | converted _ _ _ _ hr =>
    simp [Expr.lambdaCount_of_form hr, Form.lambdas, Form.children]

theorem Substituted.lambdaCount_le {s : Substitution} (h : Substituted s e r) (hs : ∀ p ∈ s, p.2.lambdaCount = 0) :
    r.lambdaCount ≤ e.lambdaCount := by
  induction h with
  | done => exact le_rfl
  | @var s e x hf =>
    cases hl : s.lookup x with
    | none => exact le_rfl
    | some a =>
      obtain ⟨_, _, hs', _⟩ := List.lookup_eq_some_iff.1 hl
      have ha : a.lambdaCount = 0 := hs (x, a) (by simp [hs'])
      simp [ha]
  | node _ _ hrel _ ih =>
    refine lambdaCount_le_of_rel (Form.rel_of_scoped hrel) ?_
    rintro a b ⟨bound, hR⟩
    exact ih _ _ hR fun p hp => hs p (List.mem_of_mem_filter hp)

end

/-! ### Steps, inlining and visits -/

namespace Optimizer

variable {σ κ : Type} {o : Optimizer σ κ} {cx : Context} {e n r : Expr}

theorem Throws.lambdaCount_le {t : Expr} (h : o.Throws n t) : t.lambdaCount ≤ n.lambdaCount := by
  obtain ht | ⟨callee, args, params, hf, hc, _⟩ := h.mem
  · exact Expr.lambdaCount_child ht
  · calc t.lambdaCount
      _ ≤ callee.lambdaCount := Expr.lambdaCount_child (by rw [hc]; exact List.mem_cons_self)
      _ ≤ n.lambdaCount := Expr.lambdaCount_child (by rw [hf]; exact List.mem_cons_self)

theorem Simplified.sum_le {c d : Clause Expr} (h : o.Simplified d c) (count : Expr → Nat) :
    (d.children.map count).sum ≤ (c.children.map count).sum := by
  simp only [Clause.children, h.body, h.filter, List.map_append, List.sum_append]
  split <;> simp

/-- Simplified handlers have no more of what is counted in their parts. -/
theorem simplified_sum_le {kept clauses : List (Clause Expr)} (h : List.SublistForall₂ o.Simplified kept clauses)
    (count : Expr → Nat) :
    ((kept.flatMap Clause.children).map count).sum ≤ ((clauses.flatMap Clause.children).map count).sum := by
  induction h with
  | nil => simp
  | cons h _ ih => simpa using Nat.add_le_add (h.sum_le count) ih
  | cons_right _ ih =>
    simp only [List.flatMap_cons, List.map_append, List.sum_append]
    omega

theorem operands_sum_le (n : Expr) (count : Expr → Nat) :
    (n.form.operands.map count).sum ≤ (n.form.children.map count).sum :=
  (n.form.operands_sublist.map _).sum_le_sum (by simp)

/-- The impure operands before a throw and the throw have no more of what is counted than all operands. -/
theorem kept_sum_le {pre post : List Expr} {t : Expr} (hops : n.form.operands = pre ++ t :: post) (keep : Expr → Bool)
    (count : Expr → Nat) : ((pre.filter keep).map count).sum + count t ≤ (n.form.children.map count).sum := by
  have hpre : ((pre.filter keep).map count).sum ≤ (pre.map count).sum :=
    ((List.filter_sublist ..).map _).sum_le_sum (by simp)
  have hoperands := operands_sum_le n count
  rw [hops] at hoperands
  simp only [List.map_append, List.map_cons, List.sum_append, List.sum_cons] at hoperands
  omega

/-- **One step** adds no function literal. -/
theorem Step.lambdaCount_le (h : o.Step n cx r) : r.lambdaCount ≤ n.lambdaCount := by
  cases h with
  | kept => exact le_rfl
  | threw ht hr => exact hr.lambdaCount_eq ▸ ht.lambdaCount_le
  | threwAfter hops _ _ hr _ hform =>
    have hkept := kept_sum_le hops (!o.facts.isPure ·) Expr.lambdaCount
    have hn := n.lambdaCount_eq
    simp only [Expr.lambdaCount_of_form hform, Form.lambdas, Form.children, List.map_append, List.map_cons, List.map_nil,
      List.sum_append, List.sum_cons, List.sum_nil, hr.lambdaCount_eq]
    omega
  | called _ _ _ _ ha => simp [ha.isLeaf.lambdaCount_eq]
  | folded _ hc => simp [hc.isLeaf.lambdaCount_eq]
  | decided b => simp [(Expr.IsLeaf.constant (r := .boolean b) rfl).lambdaCount_eq]
  | branch hb hr => exact hr.lambdaCount_eq ▸ Expr.lambdaCount_child hb.mem
  | defaulted _ _ _ _ hform => simp [(Expr.IsLeaf.defaultOf hform).lambdaCount_eq]
  | flattened hform htrue _ _ _ _ _ _ _ hboth _ hr =>
    simp only [Expr.lambdaCount_of_form hr, Expr.lambdaCount_of_form hboth, Expr.lambdaCount_of_form hform,
      Expr.lambdaCount_of_form htrue, Form.lambdas, Form.children, List.map_cons, List.sum_cons]
    omega
  | simplified hform hsimplified _ _ hr =>
    have := simplified_sum_le hsimplified Expr.lambdaCount
    simp only [Expr.lambdaCount_of_form hr, Expr.lambdaCount_of_form hform, Form.lambdas, Form.children, List.map_cons,
      List.map_append, List.sum_cons, List.sum_append]
    omega

/-- A function literal is kept. -/
theorem Step.eq_of_lambda (h : o.Step n cx r) {params : List Var} {body : Expr} (hf : n.form = .lambda params body) :
    r = n := by
  cases h with
  | kept => rfl
  | threw ht =>
    cases ht with
    | operand hops => simp [hf, Form.operands] at hops
    | _ => simp_all
  | threwAfter hops => simp [hf, Form.operands] at hops
  | folded hcomputed => simp [hf, Form.isComputed] at hcomputed
  | branch hb => cases hb <;> simp_all
  | _ => simp_all

/-- **Inlining** takes a function literal away. -/
theorem Inlines.lambdaCount_lt {reduced : Expr} (h : o.Inlines n reduced) : reduced.lambdaCount < n.lambdaCount := by
  obtain ⟨callee, params, body, args, _, b, hform, hcallee, _, ⟨_, _, s, hlit, hsub⟩, hr⟩ := h
  have hs : ∀ q ∈ s, q.2.lambdaCount = 0 := by
    intro q hq
    obtain ⟨p, _, _, value, c, _, _, hc, hrl⟩ := exists_left_of_forall₂ hlit hq
    rw [hrl.lambdaCount_eq, (Expr.IsLeaf.constant hc).lambdaCount_eq]
  calc reduced.lambdaCount
    _ = b.lambdaCount := hr.lambdaCount_eq
    _ ≤ body.lambdaCount := hsub.lambdaCount_le hs
    _ < callee.lambdaCount := by simp [Expr.lambdaCount_of_form hcallee, Form.lambdas, Form.children]
    _ ≤ n.lambdaCount := Expr.lambdaCount_child (by rw [hform]; exact List.mem_cons_self)

/-- **Visits** add no function literal. -/
theorem Visits.lambdaCount_le (h : o.Visits cx e r) : r.lambdaCount ≤ e.lambdaCount := by
  induction h with
  | skipped => exact le_rfl
  | settled _ hrel _ _ hstep ih =>
    refine hstep.lambdaCount_le.trans (lambdaCount_le_of_rel (o.facts.rel_of_inContext hrel) ?_)
    rintro a b ⟨cx, hR⟩
    exact ih _ _ hR
  | inlined _ hrel _ hin _ ih ihr =>
    refine ihr.trans (hin.lambdaCount_lt.le.trans (lambdaCount_le_of_rel (o.facts.rel_of_inContext hrel) ?_))
    rintro a b ⟨cx, hR⟩
    exact ih _ _ hR

end Optimizer

end TypedTree
