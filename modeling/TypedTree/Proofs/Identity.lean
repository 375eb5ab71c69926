import Mathlib.Data.Set.Insert
import TypedTree.Expr.Build
import TypedTree.Fault
import TypedTree.Proofs.Runs

/-!
# Nodes that exist together

Trees share nodes, and "the very same node" is decided by comparing identities. That is right as long as one identity
belongs to one node. A `Store` is a set of nodes and clauses in which it does: all that exist at some moment of a run,
with their sub-expressions and with the nodes that always exist. Stores grow as nodes are made, and a node that is
made gets an identity that no node of the store has (`Expr.make_reaches`).

`Expr.Identified` is what this asks of a tree before a run: its nodes lie in a store and were made before.
-/

namespace TypedTree

/-- The clauses of a form. -/
def Form.clauses {α : Type} : Form α → List (Clause α)
  | .tryCatch _ clauses _ _ => clauses
  | _ => []

/-- The node of a small integer. -/
def Expr.smallInteger (i : Int32) : Expr := ⟨.smallInt i, .int, .constant (.int i)⟩

/-- Nodes and clauses that exist at some moment. -/
structure Store where
  /-- The nodes. -/
  nodes : Set Expr
  /-- The clauses. -/
  clauses : Set (Clause Expr)
  children_mem : ∀ {e c : Expr}, e ∈ nodes → c ∈ e.form.children → c ∈ nodes
  clauses_mem : ∀ {e : Expr} {c : Clause Expr}, e ∈ nodes → c ∈ e.form.clauses → c ∈ clauses
  eq_of_id : ∀ {a b : Expr}, a ∈ nodes → b ∈ nodes → a.id = b.id → a = b
  clause_eq_of_id : ∀ {c d : Clause Expr}, c ∈ clauses → d ∈ clauses → c.id = d.id → c = d
  boolean_mem : ∀ b : Bool, Expr.boolean b ∈ nodes
  integer_mem : ∀ i : Int32, Expr.isSmall i = true → Expr.smallInteger i ∈ nodes

namespace Store

instance : Membership Expr Store := ⟨fun st e => e ∈ st.nodes⟩

/-- A later store has all that an earlier one has. -/
instance : Preorder Store where
  le st st' := st.nodes ⊆ st'.nodes ∧ st.clauses ⊆ st'.clauses
  le_refl _ := ⟨subset_rfl, subset_rfl⟩
  le_trans _ _ _ h h' := ⟨h.1.trans h'.1, h.2.trans h'.2⟩

variable {st st' : Store}

theorem mem_of_le (h : st ≤ st') {e : Expr} (he : e ∈ st) : e ∈ st' := h.1 he

theorem clause_mem_of_le (h : st ≤ st') {c : Clause Expr} (hc : c ∈ st.clauses) : c ∈ st'.clauses := h.2 hc

theorem child {e c : Expr} (he : e ∈ st) (hc : c ∈ e.form.children) : c ∈ st := st.children_mem he hc

theorem eq_of_same {a b : Expr} (ha : a ∈ st) (hb : b ∈ st) (h : a.same b = true) : a = b :=
  st.eq_of_id ha hb (by simpa [Expr.same] using h)

theorem eq_of_sameOption {a b : Option Expr} (ha : ∀ e ∈ a, e ∈ st) (hb : ∀ e ∈ b, e ∈ st)
    (h : Expr.sameOption a b = true) : a = b := by
  cases a <;> cases b <;> simp [Expr.sameOption] at h ⊢
  exact eq_of_same (ha _ rfl) (hb _ rfl) h

/-- Lists whose elements have the same identities, one by one, are equal where identities tell elements apart. -/
theorem eq_of_map_id {α β : Type} {id : α → β} {P : α → Prop} (hP : ∀ {a b}, P a → P b → id a = id b → a = b)
    {as bs : List α} (ha : ∀ a ∈ as, P a) (hb : ∀ b ∈ bs, P b) (h : as.map id = bs.map id) : as = bs := by
  induction as generalizing bs with
  | nil => simpa using h.symm
  | cons a as ih =>
    cases bs with
    | nil => simp at h
    | cons b bs =>
      simp only [List.map_cons, List.cons.injEq] at h
      rw [hP (ha _ List.mem_cons_self) (hb _ List.mem_cons_self) h.1,
        ih (fun e he => ha e (List.mem_cons_of_mem _ he)) (fun e he => hb e (List.mem_cons_of_mem _ he)) h.2]

theorem eq_of_ids {as bs : List Expr} (ha : ∀ e ∈ as, e ∈ st) (hb : ∀ e ∈ bs, e ∈ st)
    (h : as.map (·.id) = bs.map (·.id)) : as = bs :=
  eq_of_map_id st.eq_of_id ha hb h

theorem eq_of_clause_ids {cs ds : List (Clause Expr)} (hc : ∀ c ∈ cs, c ∈ st.clauses) (hd : ∀ d ∈ ds, d ∈ st.clauses)
    (h : cs.map (·.id) = ds.map (·.id)) : cs = ds :=
  eq_of_map_id st.clause_eq_of_id hc hd h

/-- Everything in the store was made before the supply got where it is. -/
structure Within (st : Store) (s : Supply .node) : Prop where
  node : ∀ e ∈ st, ∀ n, e.id = .made n → n < s.next
  clause : ∀ c ∈ st.clauses, c.id < s.next

/-- The store with a node that was just made. -/
def insert (st : Store) (e : Expr) (hc : ∀ c ∈ e.form.children, c ∈ st) (hcl : ∀ c ∈ e.form.clauses, c ∈ st.clauses)
    (hid : ∀ a ∈ st, a.id ≠ e.id) : Store where
  nodes := Insert.insert e st.nodes
  clauses := st.clauses
  children_mem := by
    rintro a c (rfl | ha) h
    · exact Or.inr (hc c h)
    · exact Or.inr (st.children_mem ha h)
  clauses_mem := by
    rintro a c (rfl | ha) h
    · exact hcl c h
    · exact st.clauses_mem ha h
  eq_of_id := by
    rintro a b (rfl | ha) (rfl | hb) h
    · rfl
    · exact absurd h.symm (hid b hb)
    · exact absurd h (hid a ha)
    · exact st.eq_of_id ha hb h
  clause_eq_of_id := st.clause_eq_of_id
  boolean_mem b := Or.inr (st.boolean_mem b)
  integer_mem i hi := Or.inr (st.integer_mem i hi)

/-- The store with a clause that was just made. -/
def insertClause (st : Store) (c : Clause Expr) (hid : ∀ d ∈ st.clauses, d.id ≠ c.id) : Store where
  nodes := st.nodes
  clauses := Insert.insert c st.clauses
  children_mem := st.children_mem
  clauses_mem he hc := Or.inr (st.clauses_mem he hc)
  eq_of_id := st.eq_of_id
  clause_eq_of_id := by
    rintro a b (rfl | ha) (rfl | hb) h
    · rfl
    · exact absurd h.symm (hid b hb)
    · exact absurd h (hid a ha)
    · exact st.clause_eq_of_id ha hb h
  boolean_mem := st.boolean_mem
  integer_mem := st.integer_mem

/-- The rules for making nodes, over stores. -/
abbrev making : Logic (Fresh .node) Store := State.logic Within

/-- The rules for making nodes and references. -/
abbrev building : Logic Build Store := State.logic fun st (s : Supplies) => st.Within s.nodes

/-- The rules for making nodes when there may be faults. -/
abbrev attempting : Logic Fallible Store := Fallible.logic Within

/-- The rules for runs that may be halted as `E` says. -/
abbrev running {σ : Type} (E : Halt → Prop) : Logic (Run σ) Store := Run.nodeLogic Within E

end Store

/-- The nodes of the tree have identities of their own and were made before the supply got where it is. -/
def Expr.Identified (s : Supply .node) (e : Expr) : Prop := ∃ st : Store, st.Within s ∧ e ∈ st

theorem Expr.Identified.child {s : Supply .node} {e c : Expr} (h : e.Identified s) (hc : c ∈ e.form.children) :
    c.Identified s := by
  obtain ⟨st, hst, he⟩ := h
  exact ⟨st, hst, Store.child he hc⟩

/-- The store of the nodes that always exist. -/
def Store.initial : Store where
  nodes := { e | (∃ b, e = .boolean b) ∨ ∃ i, e = .smallInteger i }
  clauses := ∅
  children_mem := by
    rintro e c (⟨b, rfl⟩ | ⟨i, rfl⟩) hc <;> cases hc
  clauses_mem := by
    rintro e c (⟨b, rfl⟩ | ⟨i, rfl⟩) hc <;> cases hc
  eq_of_id := by
    rintro a b (⟨b, rfl⟩ | ⟨i, rfl⟩) (⟨b', rfl⟩ | ⟨i', rfl⟩) h <;> cases h <;> rfl
  clause_eq_of_id := fun h => absurd h (Set.notMem_empty _)
  boolean_mem b := Or.inl ⟨b, rfl⟩
  integer_mem i _ := Or.inr ⟨i, rfl⟩

theorem Store.initial_within (s : Supply .node) : initial.Within s where
  node := by
    rintro e (⟨b, rfl⟩ | ⟨i, rfl⟩) n hn <;> cases hn
  clause := fun _ h => absurd h (Set.notMem_empty _)

/-- What is made from nothing is identified. -/
theorem Expr.identified_of_reaches {x : Fresh .node Expr}
    (h : Store.making.reaches Store.initial x fun st e => e ∈ st) (s : Supply .node) :
    (x s).1.Identified (x s).2 := by
  obtain ⟨st, _, hst, he⟩ := h _ le_rfl s (Store.initial_within s)
  exact ⟨st, hst, he⟩

/-! ### Making nodes -/

open Store

variable {st : Store}

/-- A new node is a node of a later store. -/
theorem Expr.make_reaches {ty : Ty} {form : Form Expr} (hc : ∀ c ∈ form.children, c ∈ st)
    (hcl : ∀ c ∈ form.clauses, c ∈ st.clauses) :
    making.reaches st (make ty form) fun st' e => e ∈ st' ∧ e ∉ st ∧ e.ty = ty ∧ e.form = form := by
  intro st₁ hst s hs
  have hid : ∀ a ∈ st₁, a.id ≠ .made s.next := fun a ha h => lt_irrefl _ (hs.node a ha _ h)
  refine ⟨st₁.insert ⟨.made s.next, ty, form⟩ (fun c h => hst.1 (hc c h)) (fun c h => hst.2 (hcl c h)) hid,
    ⟨Set.subset_insert _ _, subset_rfl⟩, ⟨?_, ?_⟩, Or.inl rfl, fun h => hid _ (mem_of_le hst h) rfl, rfl, rfl⟩
  · rintro a (rfl | ha) n hn
    · cases hn
      exact Nat.lt_succ_self _
    · exact (hs.node a ha n hn).trans (Nat.lt_succ_self _)
  · exact fun c hc => (hs.clause c hc).trans (Nat.lt_succ_self _)

/-- A new node without clauses, when only its existence matters. -/
theorem Expr.make_mem {ty : Ty} {form : Form Expr} (hcl : form.clauses = []) (hc : ∀ c ∈ form.children, c ∈ st) :
    making.reaches st (make ty form) fun st' e => e ∈ st' :=
  making.ofImp (make_reaches hc (by simp [hcl])) fun _ _ _ h => h.1

/-- A new clause is a clause of a later store. -/
theorem Clause.make_reaches {test : Ty} {binding : Option Var} {filter : Option Expr} {body : Expr} :
    making.reaches st (make test binding filter body) fun st' c =>
      c ∈ st'.clauses ∧ c ∉ st.clauses ∧ c.test = test ∧ c.binding = binding ∧ c.filter = filter ∧ c.body = body := by
  intro st₁ hst s hs
  have hid : ∀ d ∈ st₁.clauses, d.id ≠ s.next := fun d hd h => lt_irrefl _ (h ▸ hs.clause d hd)
  refine ⟨st₁.insertClause ⟨s.next, test, binding, filter, body⟩ hid,
    ⟨subset_rfl, Set.subset_insert _ _⟩, ⟨?_, ?_⟩, Or.inl rfl, fun h => hid _ (clause_mem_of_le hst h) rfl,
    rfl, rfl, rfl, rfl⟩
  · exact fun a ha n hn => (hs.node a ha n hn).trans (Nat.lt_succ_self _)
  · rintro c (rfl | hc)
    · exact Nat.lt_succ_self _
    · exact (hs.clause c hc).trans (Nat.lt_succ_self _)

/-- A constant is a new node or one of those that always exist, which are of type `bool` or `int`. -/
theorem Expr.constant_reaches (value : Value) (ty : Ty) :
    making.reaches st (constant value ty) fun st' e =>
      e ∈ st' ∧ (ty = .void → e ∉ st) ∧ e.ty = ty ∧ e.form = .constant value := by
  unfold constant
  split
  · exact making.ofPure fun st' _ => ⟨st'.boolean_mem _, by simp, rfl, rfl⟩
  · next i =>
    unfold integer
    split
    · next hi => exact making.ofPure fun st' _ => ⟨st'.integer_mem i hi, by simp, rfl, rfl⟩
    · refine making.ofImp (make_reaches (by simp [Form.children]) (by simp [Form.clauses])) ?_
      rintro _ _ e ⟨he, hn, hty, hf⟩
      exact ⟨he, fun _ => hn, hty, hf⟩
  · refine making.ofImp (make_reaches (by simp [Form.children]) (by simp [Form.clauses])) ?_
    rintro _ _ e ⟨he, hn, hty, hf⟩
    exact ⟨he, fun _ => hn, hty, hf⟩

theorem Expr.throwValue_reaches (value : Value) (ty : Ty) :
    making.reaches st (throwValue value ty) fun st' e => e ∈ st' ∧ e.ty = ty ∧
      ∃ c, e.form = .throw (some c) ∧ c.form = .constant value ∧ c.ty = value.runtimeType?.getD .exception := by
  refine making.ofBind (constant_reaches value _) ?_
  rintro st₁ _ c ⟨hc, _, hcty, hv⟩
  refine making.ofImp (make_reaches (by simpa [Form.children] using hc) (by simp [Form.clauses])) ?_
  rintro _ _ e ⟨he, _, hty, hform⟩
  exact ⟨he, hty, c, hform, hv, hcty⟩

end TypedTree
