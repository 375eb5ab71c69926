import Mathlib.Data.Finset.Dedup
import Mathlib.Data.Finset.Option
import TypedTree.Proofs.FreeVariables
import TypedTree.Proofs.Walks

/-!
# Free variables as sets

The free variables of a tree by recursion on it: a reference has its variable, a function literal, a block or a catch clause
takes away what it binds, and everything else has what its sub-expressions have. `Form.freeSet` says so for one layer and
`Expr.freeSet` for trees.

The scan works otherwise. It keeps one stack of scopes and one set for the whole walk and takes nothing away. It still finds
the union of those sets (`scan_finds_free_sets`), since the variables that a walk adds are those that are free in the tree
and in no scope of the stack (`ScopeScan.adds_walk`), and a set difference for each scope comes to the same. A variable that
is met again is not added again: what every handler of a walk keeps, the walk keeps (`Visitor.Keeps.walk`).
-/

namespace TypedTree

/-! ### Sets by recursion -/

/-- The union of some sets of variables. -/
def unionOf (sets : List (Finset Var)) : Finset Var := sets.foldr (· ∪ ·) ∅

@[simp] theorem mem_unionOf {x : Var} {sets : List (Finset Var)} : x ∈ unionOf sets ↔ ∃ s ∈ sets, x ∈ s := by
  induction sets with
  | nil => simp [unionOf]
  | cons s sets ih =>
    rw [unionOf, List.foldr_cons, ← unionOf, Finset.mem_union, ih]
    simp

/-- The free variables of a node, given those of its sub-expressions. -/
def Form.freeSet : Form (Finset Var) → Finset Var
  | .var x => {x}
  | .lambda params body => body \ params.toFinset
  | .block locals body => unionOf body \ locals.toFinset
  | .tryCatch body clauses cleanup onFault =>
    body ∪ unionOf (clauses.map fun c => unionOf c.children \ c.binding.toFinset)
      ∪ unionOf cleanup.toList ∪ unionOf onFault.toList
  | form => unionOf form.children

/-- The free variables of a tree. -/
def Expr.freeSet (e : Expr) : Finset Var := recurse (fun _ form () => (form.map (·.2 ())).freeSet) e ()

theorem Expr.freeSet_eq (e : Expr) : e.freeSet = (e.form.map freeSet).freeSet := by
  rw [freeSet, recurse_eq]
  simp only [Form.map_map]
  rfl

/-- A sub-expression of a body with handlers, with the variables bound in it, is found in one of four places. -/
theorem Form.exists_scoped_tryCatch {α : Type} {body : α} {clauses : List (Clause α)} {cleanup onFault : Option α}
    {P : List Var × α → Prop} : (∃ p ∈ (tryCatch body clauses cleanup onFault).scoped.children, P p) ↔
      P ([], body) ∨ (∃ c ∈ clauses, ∃ e ∈ c.children, P (c.binding.toList, e)) ∨
        (∃ e ∈ cleanup.toList, P ([], e)) ∨ ∃ e ∈ onFault.toList, P ([], e) := by
  simp only [mem_scoped_tryCatch]
  constructor
  · rintro ⟨_, rfl | ⟨c, hc, e, he, rfl⟩ | ⟨e, he, rfl⟩ | ⟨e, he, rfl⟩, h⟩
    · exact .inl h
    · exact .inr (.inl ⟨c, hc, e, he, h⟩)
    · exact .inr (.inr (.inl ⟨e, he, h⟩))
    · exact .inr (.inr (.inr ⟨e, he, h⟩))
  · rintro (h | ⟨c, hc, e, he, h⟩ | ⟨e, he, h⟩ | ⟨e, he, h⟩)
    · exact ⟨_, .inl rfl, h⟩
    · exact ⟨_, .inr (.inl ⟨c, hc, e, he, rfl⟩), h⟩
    · exact ⟨_, .inr (.inr (.inl ⟨e, he, rfl⟩)), h⟩
    · exact ⟨_, .inr (.inr (.inr ⟨e, he, rfl⟩)), h⟩

variable {x : Var}

/-- A variable of a layer is referenced there, or free in a sub-expression in which the form does not bind it. -/
theorem Form.mem_freeSet {α : Type} {form : Form α} {free : α → Finset Var} :
    x ∈ (form.map free).freeSet ↔ form = .var x ∨ ∃ p ∈ form.scoped.children, x ∈ free p.2 ∧ x ∉ p.1 := by
  have hplain : (∀ y, form ≠ .var y) → form.scoped = form.map ([], ·) →
      (form.map free).freeSet = unionOf (form.map free).children →
      (x ∈ (form.map free).freeSet ↔ form = .var x ∨ ∃ p ∈ form.scoped.children, x ∈ free p.2 ∧ x ∉ p.1) := by
    intro hvar hscoped hfree
    rw [hfree, hscoped]
    simp [hvar]
  cases form with
  | var y => simp [Form.map, Form.freeSet, Form.scoped, Form.children, eq_comm]
  | lambda params body => simp [Form.map, Form.freeSet, Form.scoped, Form.children]
  | block locals body => simp [Form.map, Form.freeSet, Form.scoped, Form.children, ← and_assoc, ← exists_and_right]
  | tryCatch body clauses cleanup onFault =>
    rw [exists_scoped_tryCatch]
    have hclause : ∀ c : Clause α, x ∈ unionOf (c.map free).children \ (c.map free).binding.toFinset ↔
        ∃ e ∈ c.children, x ∈ free e ∧ x ∉ c.binding.toList := by
      intro c
      rw [Finset.mem_sdiff, mem_unionOf, Clause.children_map, Clause.map]
      simp [← and_assoc, ← exists_and_right]
    simp only [Form.map, Form.freeSet, Finset.mem_union, mem_unionOf, List.map_map, List.mem_map,
      exists_exists_and_eq_and, Function.comp_apply, hclause]
    simp [or_assoc]
  | _ => exact hplain (by simp) rfl rfl

theorem Expr.mem_freeSet {e : Expr} : x ∈ e.freeSet ↔ Free x e := by
  induction e using Expr.inductionOn with
  | node e ih =>
    rw [freeSet_eq, Form.mem_freeSet, free_iff]
    refine or_congr_right (exists_congr fun p => and_congr_right fun hp => and_congr_left' ?_)
    exact ih p.2 (Form.mem_children_of_scoped hp)

/-! ### The list of the scan -/

namespace ScopeScan

theorem invariant_within {below : ScopeScan → ScopeScan} (bound : List Var)
    (h : Visitor.Invariant (·.free.Nodup) below) : Visitor.Invariant (·.free.Nodup) (within bound below) :=
  fun s hs => h { s with scopes := bound :: s.scopes } hs

/-- The scan adds a variable once. -/
theorem keeps_nodup : visitor.Keeps (·.free.Nodup) where
  node _ _ h := h
  reference x := by
    intro s hs
    unfold visitor reference
    dsimp only
    split
    · exact hs
    · exact hs.insert
  lambda params _ _ h := invariant_within params h
  block locals _ _ h := invariant_within locals h
  clause c _ h := invariant_within c.binding.toList h

end ScopeScan

theorem nodup_freeVars (es : List Expr) : (freeVars es).Nodup := by
  have hscan := Visitor.invariant_inOrder (List.forall_mem_map.2 fun e (_ : e ∈ es) => ScopeScan.keeps_nodup.walk e)
  have hfold : freeVars es = (Visitor.inOrder (es.map ScopeScan.visitor.walk) ⟨[], []⟩).free := by
    simp [freeVars, Visitor.inOrder, List.foldl_map]
  rw [hfold]
  exact hscan ⟨[], []⟩ List.nodup_nil

/-! ### The scan -/

/-- Scans that find the same variables give the same list up to its order. -/
theorem freeVars_perm {es es' : List Expr} (h : ∀ x, (∃ e ∈ es, Free x e) ↔ ∃ e ∈ es', Free x e) :
    (freeVars es).Perm (freeVars es') :=
  (List.perm_ext_iff_of_nodup (nodup_freeVars es) (nodup_freeVars es')).2 fun x => by
    rw [mem_freeVars, mem_freeVars, h x]

/-- **The scan** of some trees finds the union of their free variables, each once. The order of the trees does not matter, nor
does that of the sub-expressions of a node, as long as the same variables are bound in them. -/
theorem scan_finds_free_sets (es : List Expr) :
    (freeVars es).toFinset = unionOf (es.map Expr.freeSet) ∧ (freeVars es).Nodup ∧
      (∀ es', es.Perm es' → (freeVars es).Perm (freeVars es')) ∧
      ∀ a b : Expr, (∀ x, a.form ≠ .var x) → (∀ x, b.form ≠ .var x) →
        a.form.scoped.children.Perm b.form.scoped.children → (freeVars [a]).Perm (freeVars [b]) := by
  refine ⟨?_, nodup_freeVars es, ?_, ?_⟩
  · ext x
    rw [List.mem_toFinset, mem_freeVars, mem_unionOf]
    simp [Expr.mem_freeSet]
  · intro es' hperm
    refine freeVars_perm fun x => ?_
    simp only [hperm.mem_iff]
  · intro a b ha hb hperm
    refine freeVars_perm fun x => ?_
    simp only [List.mem_singleton, exists_eq_left, free_iff (e := a), free_iff (e := b), ha, hb, hperm.mem_iff]

/-- A variable that is bound again and again. -/
def caught : Var := ⟨0, "caught", .exception⟩

/-- A variable that is never bound. -/
def outer : Var := ⟨1, "outer", .exception⟩

/-- The body of `rebound`, which binds the parameter of the function literal around it again. -/
def reboundBlock (parts : List Expr) : Fresh .node Expr := Expr.block [caught] parts .exception

/-- A function literal and a handler, both of which bind a variable that is referenced once more after the handler. -/
def rebound : Fresh .node (List Expr) := do
  let bound ← Expr.var caught
  let free ← Expr.var outer
  let literal ← Expr.lambda [caught] (← reboundBlock [bound, free])
  let filter ← Expr.typeTest bound .exception .isInstance
  let clause ← Clause.make .exception (some caught) (some filter) free
  return [literal, ← Expr.tryCatch free [clause] (some bound) none]

theorem scan_finds_free_sets_rebound :
    let es := (rebound ⟨0⟩).1
    let part : Var → Expr := fun x => (Expr.var x ⟨x.id⟩).1
    let a := (reboundBlock [part caught, part outer] ⟨2⟩).1
    let b := (reboundBlock [part outer, part caught] ⟨2⟩).1
    es.map Expr.freeSet = [{outer}, {caught, outer}] ∧ (freeVars es).toFinset = {caught, outer} ∧ (freeVars es).Nodup ∧
      (freeVars es).Perm (freeVars es.reverse) ∧ (freeVars [a]).Perm (freeVars [b]) ∧ freeVars [b] = [outer] := by
  intro es part a b
  have hsets : es.map Expr.freeSet = [{outer}, {caught, outer}] := by decide +kernel
  obtain ⟨hunion, hnodup, hperm, hparts⟩ := scan_finds_free_sets es
  refine ⟨hsets, ?_, hnodup, hperm es.reverse es.reverse_perm.symm, ?_, by decide +kernel⟩
  · rw [hunion, hsets]
    decide
  · have hform : ∀ parts x, (reboundBlock parts ⟨2⟩).1.form ≠ .var x := by
      intro parts x
      show Form.block [caught] parts ≠ .var x
      simp
    exact hparts a b (hform _) (hform _) (.swap _ _ _)

end TypedTree
