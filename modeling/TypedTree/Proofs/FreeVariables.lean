import TypedTree.Optimize.Handlers
import TypedTree.Proofs.Substitution

/-!
# Free variables

`Free x e` says that `x` is referenced in `e` outside every scope of `e` that binds it; which scopes a form opens is what
`Form.scoped` says, so the scan of free variables and substitution are held against one notion of scope. The scan finds
exactly the free variables (`mem_freeVars`), and a substitution leaves no free variable but those of its literals and
those it does not replace (`Substituted.free`).
-/

namespace TypedTree

/-- The variable is referenced in the tree outside every scope that binds it. -/
inductive Free (x : Var) : Expr → Prop where
  /-- A reference. -/
  | var {e : Expr} : e.form = .var x → Free x e
  /-- A sub-expression in which the node does not bind the variable. -/
  | child {e c : Expr} {bound : List Var} : (bound, c) ∈ e.form.scoped.children → x ∉ bound → Free x c → Free x e

theorem free_iff {x : Var} {e : Expr} :
    Free x e ↔ e.form = .var x ∨ ∃ p ∈ e.form.scoped.children, Free x p.2 ∧ x ∉ p.1 := by
  constructor
  · rintro (h | ⟨hc, hx, h⟩)
    · exact .inl h
    · exact .inr ⟨_, hc, h, hx⟩
  · rintro (h | ⟨p, hp, h, hx⟩)
    · exact .var h
    · exact .child hp hx h

/-- The scopes of a body with handlers: only the clauses bind a variable. -/
theorem Form.mem_scoped_tryCatch {α : Type} {body : α} {clauses : List (Clause α)} {cleanup onFault : Option α}
    {p : List Var × α} : p ∈ (tryCatch body clauses cleanup onFault).scoped.children ↔
      p = ([], body) ∨ (∃ c ∈ clauses, ∃ e ∈ c.children, p = (c.binding.toList, e)) ∨
        (∃ e ∈ cleanup.toList, p = ([], e)) ∨ ∃ e ∈ onFault.toList, p = ([], e) := by
  simp only [Form.scoped, children, List.mem_cons, List.mem_append, List.mem_flatMap, List.mem_map,
    exists_exists_and_eq_and, Clause.children_map, Option.toList_map]
  simp only [eq_comm, or_assoc]

/-! ### The scan -/

namespace ScopeScan

/-- The step leaves the scopes alone and adds, of the variables that `P` holds of, those that are not bound. -/
def Adds (step : ScopeScan → ScopeScan) (P : Var → Prop) : Prop :=
  ∀ s, (step s).scopes = s.scopes ∧ ∀ x, x ∈ (step s).free ↔ x ∈ s.free ∨ (P x ∧ s.isBound x = false)

variable {f : ScopeScan → ScopeScan} {fs gs : List (ScopeScan → ScopeScan)} {P Q : Var → Prop}

theorem Adds.congr (h : Adds f P) (hPQ : ∀ x, P x ↔ Q x) : Adds f Q := by
  intro s
  obtain ⟨hs, hf⟩ := h s
  exact ⟨hs, fun x => by rw [hf x, hPQ x]⟩

theorem adds_reference (y : Var) : Adds (reference y) (· = y) := by
  intro s
  unfold reference
  split
  · next h =>
    refine ⟨rfl, fun x => ⟨.inl, ?_⟩⟩
    rintro (hx | ⟨rfl, hx⟩)
    · exact hx
    · rw [h] at hx; cases hx
  · next h =>
    refine ⟨rfl, fun x => ?_⟩
    simp only [List.mem_insert_iff]
    constructor
    · rintro (rfl | hx)
      · exact .inr ⟨rfl, by simpa using h⟩
      · exact .inl hx
    · rintro (hx | ⟨rfl, _⟩)
      · exact .inr hx
      · exact .inl rfl

theorem Adds.within (h : Adds f P) (bound : List Var) : Adds (within bound f) fun x => P x ∧ x ∉ bound := by
  intro s
  obtain ⟨hs, hf⟩ := h { s with scopes := bound :: s.scopes }
  refine ⟨by simp [ScopeScan.within, hs], fun x => ?_⟩
  change x ∈ (f { s with scopes := bound :: s.scopes }).free ↔ _
  rw [hf x]
  simp [isBound, and_assoc]

theorem adds_nil : Adds (Visitor.inOrder []) fun _ => False :=
  fun _ => ⟨rfl, fun x => by simp [Visitor.inOrder]⟩

theorem Adds.append (h : Adds (Visitor.inOrder fs) P) (h' : Adds (Visitor.inOrder gs) Q) :
    Adds (Visitor.inOrder (fs ++ gs)) fun x => P x ∨ Q x := by
  intro s
  obtain ⟨hs, hf⟩ := h s
  obtain ⟨hs', hf'⟩ := h' (Visitor.inOrder fs s)
  have happ : Visitor.inOrder (fs ++ gs) s = Visitor.inOrder gs (Visitor.inOrder fs s) := by
    simp [Visitor.inOrder]
  have hb : ∀ x, (Visitor.inOrder fs s).isBound x = s.isBound x := fun x => by simp [isBound, hs]
  refine ⟨by rw [happ, hs', hs], fun x => ?_⟩
  rw [happ, hf' x, hf x, hb x]
  tauto

theorem Adds.cons (h : Adds f P) (h' : Adds (Visitor.inOrder fs) Q) :
    Adds (Visitor.inOrder (f :: fs)) fun x => P x ∨ Q x :=
  @Adds.append [f] _ _ _ h h'

/-- Steps one after the other add what one of them adds. -/
theorem adds_map {α : Type} {as : List α} {step : α → ScopeScan → ScopeScan} {P : α → Var → Prop}
    (h : ∀ a ∈ as, Adds (step a) (P a)) : Adds (Visitor.inOrder (as.map step)) fun x => ∃ a ∈ as, P a x := by
  induction as with
  | nil => exact adds_nil.congr fun x => by simp
  | cons a as ih =>
    refine ((h a List.mem_cons_self).cons (ih fun b hb => h b (List.mem_cons_of_mem _ hb))).congr fun x => ?_
    simp

theorem adds_enter {form : Form Expr} (h : ∀ c ∈ form.children, Adds (visitor.walk c) (Free · c)) :
    Adds (visitor.enter (form.map fun c => (c, visitor.walk c)))
      fun x => form = .var x ∨ ∃ p ∈ form.scoped.children, Free x p.2 ∧ x ∉ p.1 := by
  have hplain : (∀ x, form ≠ .var x) → form.scoped = form.map ([], ·) →
      Adds (Visitor.inOrder ((form.map fun c => (c, visitor.walk c)).children.map (·.2)))
        fun x => form = .var x ∨ ∃ p ∈ form.scoped.children, Free x p.2 ∧ x ∉ p.1 := by
    intro hvar hscoped
    rw [Form.children_map, List.map_map]
    refine (adds_map h).congr fun x => ?_
    simp [hvar, hscoped]
  cases form with
  | var y => exact (adds_reference y).congr fun x => by simp [Form.scoped, Form.map, Form.children, eq_comm]
  | lambda params body =>
    refine ((h body (by simp [Form.children])).within params).congr fun x => ?_
    simp [Form.scoped, Form.children]
  | block locals body =>
    have hbody : Adds (Visitor.inOrder ((body.map fun c => (c, visitor.walk c)).map (·.2)))
        fun x => ∃ c ∈ body, Free x c := by
      rw [List.map_map]
      exact adds_map h
    refine (hbody.within locals).congr fun x => ?_
    simp only [Form.scoped, Form.children, List.mem_map, reduceCtorEq, false_or]
    grind
  | tryCatch body clauses cleanup onFault =>
    have hbody := h body (by simp [Form.children])
    have hclause : ∀ c ∈ clauses, Adds (within c.binding.toList (Visitor.inOrder (c.children.map visitor.walk)))
        fun x => (∃ e ∈ c.children, Free x e) ∧ x ∉ c.binding.toList :=
      fun c hc => (adds_map fun e he => h e (Form.mem_children_of_clause hc he)).within _
    have hoption : ∀ o : Option Expr, (∀ e ∈ o.toList, e ∈ (Form.tryCatch body clauses cleanup onFault).children) →
        Adds (Visitor.inOrder (o.toList.map visitor.walk)) fun x => ∃ e ∈ o.toList, Free x e :=
      fun o ho => adds_map fun e he => h e (ho e he)
    have hsteps := ((hbody.cons (adds_map hclause)).append (hoption cleanup fun e he => by
      simp [Form.children, he])).append (hoption onFault fun e he => by simp [Form.children, he])
    have henter : visitor.enter ((Form.tryCatch body clauses cleanup onFault).map fun c => (c, visitor.walk c)) =
        Visitor.inOrder (visitor.walk body ::
          clauses.map (fun c => within c.binding.toList (Visitor.inOrder (c.children.map visitor.walk)))
          ++ cleanup.toList.map visitor.walk ++ onFault.toList.map visitor.walk) := by
      simp [Visitor.enter, Form.map, Clause.map, Function.comp_def, Option.toList_map, visitor, Clause.children]
    rw [henter]
    refine hsteps.congr fun x => ?_
    simp only [reduceCtorEq, false_or, Form.mem_scoped_tryCatch]
    constructor
    · rintro (((hx | ⟨c, hc, ⟨e, he, hx⟩, hb⟩) | ⟨e, he, hx⟩) | ⟨e, he, hx⟩)
      · exact ⟨_, .inl rfl, hx, by simp⟩
      · exact ⟨_, .inr (.inl ⟨c, hc, e, he, rfl⟩), hx, hb⟩
      · exact ⟨_, .inr (.inr (.inl ⟨e, he, rfl⟩)), hx, by simp⟩
      · exact ⟨_, .inr (.inr (.inr ⟨e, he, rfl⟩)), hx, by simp⟩
    · rintro ⟨_, rfl | ⟨c, hc, e, he, rfl⟩ | ⟨e, he, rfl⟩ | ⟨e, he, rfl⟩, hx, hb⟩
      · exact .inl (.inl (.inl hx))
      · exact .inl (.inl (.inr ⟨c, hc, ⟨e, he, hx⟩, hb⟩))
      · exact .inl (.inr ⟨e, he, hx⟩)
      · exact .inr ⟨e, he, hx⟩
  | _ => exact hplain (by simp) rfl

theorem adds_walk (e : Expr) : Adds (visitor.walk e) (Free · e) := by
  induction e using Expr.inductionOn with
  | node e ih =>
    rw [Visitor.walk_eq]
    exact (adds_enter ih).congr fun x => free_iff.symm

end ScopeScan

/-- **The scan** finds exactly the variables that are free in one of the trees. -/
theorem mem_freeVars {x : Var} {es : List Expr} : x ∈ freeVars es ↔ ∃ e ∈ es, Free x e := by
  have h := ScopeScan.adds_map (fun e (_ : e ∈ es) => ScopeScan.adds_walk e) ⟨[], []⟩
  have hscan : freeVars es = (Visitor.inOrder (es.map ScopeScan.visitor.walk) ⟨[], []⟩).free := by
    simp [freeVars, Visitor.inOrder, List.foldl_map]
  rw [hscan, h.2 x]
  simp [ScopeScan.isBound]

/-! ### Free variables of corresponding nodes -/

section Scopes

variable {α β : Type} {R : α → β → Prop}

/-- Corresponding forms bind the same variables in corresponding sub-expressions. -/
theorem Form.Rel.scoped {f : Form α} {g : Form β} (h : Form.Rel R f g) :
    Form.Rel (fun p q => p.1 = q.1 ∧ R p.2 q.2) f.scoped g.scoped := by
  have hplain : Form.Rel (fun p q => p.1 = q.1 ∧ R p.2 q.2) (f.map (([] : List Var), ·)) (g.map ([], ·)) :=
    (h.mono fun _ _ hR => ⟨rfl, hR⟩).map
  cases h with
  | lambda h => exact .lambda ⟨rfl, h⟩
  | block hs => exact .block (forall₂_map (hs.imp fun _ _ h => ⟨rfl, h⟩))
  | tryCatch h hs h' h'' =>
    refine .tryCatch ⟨rfl, h⟩ (forall₂_map (hs.imp fun _ _ hc => ?_)) (optionRel_map ?_) (optionRel_map ?_)
    · refine ⟨hc.test, hc.binding, optionRel_map ?_, congrArg Option.toList hc.binding, hc.body⟩
      exact optionRel_imp hc.filter fun _ _ _ h => ⟨congrArg Option.toList hc.binding, h⟩
    · exact optionRel_imp h' fun _ _ _ h => ⟨rfl, h⟩
    · exact optionRel_imp h'' fun _ _ _ h => ⟨rfl, h⟩
  | _ => exact hplain

theorem Form.scoped_scoped (form : Form α) : form.scoped.scoped = form.scoped.map fun p => (p.1, p) := by
  cases form <;> simp [Form.scoped, Form.map, Case.map, Clause.map, Function.comp_def]

end Scopes

variable {x : Var}

/-- A node whose sub-expressions have no further free variables has none either. -/
theorem Free.of_rel {e n : Expr} {R : Expr → Expr → Prop} (h : Free x n) (hrel : Form.Rel R e.form n.form)
    (hR : ∀ a b, R a b → Free x b → Free x a) : Free x e := by
  obtain hvar | ⟨q, hq, hx, hb⟩ := free_iff.1 h
  · rw [hvar] at hrel
    generalize hf : e.form = f at hrel
    cases hrel
    exact .var hf
  · obtain ⟨p, hp, hpq, hR'⟩ := hrel.scoped.exists_left hq
    exact .child hp (hpq ▸ hb) (hR _ _ hR' hx)

theorem Free.of_form {e n : Expr} (h : Free x n) (hform : n.form = e.form) : Free x e := by
  rw [free_iff, ← hform, ← free_iff]
  exact h

theorem free_of_conditional {e test a b : Expr} (h : e.form = .conditional test a b) :
    Free x e ↔ Free x test ∨ Free x a ∨ Free x b := by
  rw [free_iff, h]
  simp [Form.scoped, Form.map, Form.children]

theorem free_of_block {e : Expr} {locals : List Var} {body : List Expr} (h : e.form = .block locals body) :
    Free x e ↔ x ∉ locals ∧ ∃ d ∈ body, Free x d := by
  rw [free_iff, h]
  simp only [Form.scoped, Form.children, List.mem_map, reduceCtorEq, false_or, exists_exists_and_eq_and]
  constructor
  · rintro ⟨d, hd, hx, hlocals⟩
    exact ⟨hlocals, d, hd, hx⟩
  · rintro ⟨hlocals, d, hd, hx⟩
    exact ⟨d, hd, hx, hlocals⟩

theorem free_of_convert {e operand : Expr} (h : e.form = .convert operand) : Free x e ↔ Free x operand := by
  rw [free_iff, h]
  simp [Form.scoped, Form.map, Form.children]

/-- **Retyping** keeps the free variables. -/
theorem Retyped.free_iff {ty : Ty} {e r : Expr} (h : Retyped ty e r) : Free x r ↔ Free x e := by
  induction h with
  | same => rfl
  | constant _ hf _ _ hr | defaultOf _ hf _ _ hr | throw _ hf _ hr | jump _ hf _ hr =>
    exact ⟨fun hx => hx.of_form (hr.trans hf.symm), fun hx => hx.of_form (hf.trans hr.symm)⟩
  | conditional _ hf _ _ _ _ hr iha ihb => rw [free_of_conditional hr, free_of_conditional hf, iha, ihb]
  | block _ hf _ _ hr ih =>
    rw [free_of_block hr, free_of_block hf]
    simp [or_and_right, exists_or, ih]
  | discarded _ _ _ _ hr => simp [free_of_block hr]
  | converted _ _ _ _ hr => exact free_of_convert hr

theorem Retyped.free {ty : Ty} {e r : Expr} (h : Retyped ty e r) (hx : Free x r) : Free x e := h.free_iff.1 hx

/-- **Substitution**: what is free afterwards was free and is not replaced, or is free in what replaces a variable. -/
theorem Substituted.free {s : Substitution} {e r : Expr} (h : Substituted s e r) (hx : Free x r) :
    (Free x e ∧ ∀ p ∈ s, p.1 ≠ x) ∨ ∃ p ∈ s, Free x p.2 := by
  induction h with
  | done => exact .inl ⟨hx, by simp⟩
  | @var s e y hf =>
    cases hl : s.lookup y with
    | none =>
      rw [hl, Option.getD_none] at hx
      obtain hvar | ⟨q, hq, _⟩ := free_iff.1 hx
      · obtain rfl : y = x := by rw [hf] at hvar; cases hvar; rfl
        refine .inl ⟨hx, fun p hp hpx => ?_⟩
        have hne := List.lookup_eq_none_iff.1 hl p hp
        simp [hpx] at hne
      · simp [hf, Form.scoped, Form.map, Form.children] at hq
    | some a =>
      rw [hl, Option.getD_some] at hx
      obtain ⟨_, _, hs, _⟩ := List.lookup_eq_some_iff.1 hl
      exact .inr ⟨(y, a), by simp [hs], hx⟩
  | @node s e r R hvar _ hrel _ ih =>
    obtain hr | ⟨⟨bound, c'⟩, hc', hx, hb⟩ := free_iff.1 hx
    · rw [hr] at hrel
      generalize hf : e.form = f at hrel
      cases f <;> cases hrel
      exact absurd hf (hvar _)
    · obtain ⟨⟨bound', q⟩, hq, hbound, hR⟩ := hrel.scoped.exists_left hc'
      rw [Form.scoped_scoped, Form.children_map, List.mem_map] at hq
      obtain ⟨q, hq, hq'⟩ := hq
      cases hq'
      dsimp only at hbound hR hb
      obtain ⟨hfree, hdom⟩ | ⟨p, hp, hfree⟩ := ih q c' hR hx
      · refine .inl ⟨.child hq (hbound ▸ hb) hfree, fun p hp hpx => ?_⟩
        refine hdom p (List.mem_filter.2 ⟨hp, ?_⟩) hpx
        simp [hpx, hbound, hb]
      · exact .inr ⟨p, List.mem_of_mem_filter hp, hfree⟩

end TypedTree
