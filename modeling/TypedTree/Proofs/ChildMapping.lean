import TypedTree.Proofs.Substitution

/-!
# Mapping the sub-expressions of a node

The sub-expressions of a node are mapped by attempts, which have a state, may make nodes and may fail. Mapping a form is mapping
the list of its sub-expressions (`Form.children_mapM`), so what happens is determined by the attempts on that list: they all
succeed (`Calls`), or one of them is the first to fail (`Stops`).

When all succeed, the node is rebuilt. Identities decide what is kept: the node itself when every attempt gave its
sub-expression back, and otherwise each catch clause whose parts were given back (`Expr.rebuild_run`). A kept clause still has
the old nodes in its places, which are the very same as those that came back (`Expr.Stands`).
-/

namespace TypedTree

/-- Computations that have a state, may make nodes and may fail. The state and the nodes remain after a failure. -/
abbrev Attempt (ε σ : Type) := ExceptT ε (StateT σ (Fresh .node))

section Attempts

variable {ε σ α β : Type} {t t' : σ} {n n' : Supply .node}

theorem Attempt.bind_ok {x : Attempt ε σ α} {a : α} (g : α → Attempt ε σ β) (h : x t n = ((.ok a, t'), n')) :
    (x >>= g) t n = g a t' n' := by
  simp only [bind, ExceptT.bind, ExceptT.mk, ExceptT.bindCont, StateT.bind, h]

theorem Attempt.bind_error {x : Attempt ε σ α} {error : ε} (g : α → Attempt ε σ β) (h : x t n = ((.error error, t'), n')) :
    (x >>= g) t n = ((.error error, t'), n') := by
  simp only [bind, ExceptT.bind, ExceptT.mk, ExceptT.bindCont, StateT.bind, h]
  rfl

theorem Attempt.ok_or_error (x : Attempt ε σ α) (t : σ) (n : Supply .node) :
    (∃ a t' n', x t n = ((.ok a, t'), n')) ∨ ∃ error t' n', x t n = ((.error error, t'), n') := by
  cases hrun : x t n with
  | mk p n' =>
    obtain ⟨result, t'⟩ := p
    cases result with
    | ok a => exact .inl ⟨a, t', n', rfl⟩
    | error error => exact .inr ⟨error, t', n', rfl⟩

/-- The rules for attempts, of which nothing is said when they fail. -/
def Attempt.logic (ε σ : Type) : Logic (Attempt ε σ) Moment where
  reaches _ x P := ∀ t n b t' n', x t n = ((.ok b, t'), n') → P .now b
  ofPure h t n b t' n' hx := by
    cases hx
    exact h .now trivial
  ofBind {_ _ _ x f _ _} hx hf t n c t'' n'' hxf := by
    rcases x.ok_or_error t n with ⟨b, t₁, n₁, hrun⟩ | ⟨error, t₁, n₁, hrun⟩
    · rw [Attempt.bind_ok f hrun] at hxf
      exact hf .now trivial b (hx _ _ _ _ _ hrun) _ _ _ _ _ hxf
    · rw [Attempt.bind_error f hrun] at hxf
      cases hxf
  ofImp hx h t n b t' n' hrun := h .now trivial b (hx t n b t' n' hrun)

/-! ### Attempts in order -/

/-- The attempts on a list, each from where the one before it ended, all succeed. -/
inductive Calls (f : α → Attempt ε σ β) : List α → σ → Supply .node → List β → σ → Supply .node → Prop where
  | nil {t : σ} {n : Supply .node} : Calls f [] t n [] t n
  | cons {a as} {t : σ} {n : Supply .node} {b t₁ n₁ bs t₂ n₂} : f a t n = ((.ok b, t₁), n₁) → Calls f as t₁ n₁ bs t₂ n₂ →
      Calls f (a :: as) t n (b :: bs) t₂ n₂

/-- The attempts on a list succeed up to one that fails, and that is where they end. -/
inductive Stops (f : α → Attempt ε σ β) : List α → σ → Supply .node → ε → σ → Supply .node → Prop where
  | here {a as} {t : σ} {n : Supply .node} {error t₁ n₁} : f a t n = ((.error error, t₁), n₁) →
      Stops f (a :: as) t n error t₁ n₁
  | later {a as} {t : σ} {n : Supply .node} {b t₁ n₁ error t₂ n₂} : f a t n = ((.ok b, t₁), n₁) → Stops f as t₁ n₁ error t₂ n₂ →
      Stops f (a :: as) t n error t₂ n₂

variable {f : α → Attempt ε σ β} {as : List α} {bs : List β} {error : ε}

theorem calls_or_stops (f : α → Attempt ε σ β) (as : List α) (t : σ) (n : Supply .node) :
    (∃ bs t' n', Calls f as t n bs t' n') ∨ ∃ error t' n', Stops f as t n error t' n' := by
  induction as generalizing t n with
  | nil => exact .inl ⟨[], t, n, .nil⟩
  | cons a as ih =>
    rcases (f a).ok_or_error t n with ⟨b, t₁, n₁, hrun⟩ | ⟨error, t₁, n₁, hrun⟩
    · rcases ih t₁ n₁ with ⟨bs, t', n', h⟩ | ⟨error, t', n', h⟩
      · exact .inl ⟨b :: bs, t', n', .cons hrun h⟩
      · exact .inr ⟨error, t', n', .later hrun h⟩
    · exact .inr ⟨error, t₁, n₁, .here hrun⟩

theorem Calls.mapM (h : Calls f as t n bs t' n') : as.mapM f t n = ((.ok bs, t'), n') := by
  induction h with
  | nil => rfl
  | cons hrun _ ih =>
    rw [List.mapM_cons, Attempt.bind_ok _ hrun, Attempt.bind_ok _ ih]
    rfl

theorem Stops.mapM (h : Stops f as t n error t' n') : as.mapM f t n = ((.error error, t'), n') := by
  induction h with
  | here hrun => rw [List.mapM_cons, Attempt.bind_error _ hrun]
  | later hrun _ ih => rw [List.mapM_cons, Attempt.bind_ok _ hrun, Attempt.bind_error _ ih]

theorem Calls.next_le (hf : ∀ a t n, n.next ≤ (f a t n).2.next) (h : Calls f as t n bs t' n') : n.next ≤ n'.next := by
  induction h with
  | nil => exact le_rfl
  | @cons a _ t n _ _ _ _ _ _ hrun _ ih =>
    have hstep := hf a t n
    rw [hrun] at hstep
    exact hstep.trans ih

/-- Attempts on the sub-expressions of a form give a form of the same kind, with the results in their places. -/
theorem Calls.mapForm {form : Form α} (h : Calls f form.children t n bs t' n') :
    ∃ form', form.mapM f t n = ((.ok form', t'), n') ∧ form'.children = bs ∧ Form.Rel (fun _ _ => True) form form' := by
  have hlist := h.mapM
  rw [← Form.children_mapM, ← bind_pure_comp] at hlist
  rcases (form.mapM f).ok_or_error t n with ⟨form', t₁, n₁, hrun⟩ | ⟨error, t₁, n₁, hrun⟩
  · rw [Attempt.bind_ok _ hrun] at hlist
    cases hlist
    have hshape : (Attempt.logic ε σ).reaches .now (form.mapM f) fun _ form' => Form.Rel (fun _ _ => True) form form' :=
      Form.mapM_reaches _ (R := fun _ _ _ => True) (fun _ _ _ _ _ h => h) fun _ _ _ _ _ _ _ _ _ _ => trivial
    exact ⟨form', hrun, rfl, hshape _ _ _ _ _ hrun⟩
  · rw [Attempt.bind_error _ hrun] at hlist
    cases hlist

theorem Stops.mapForm {form : Form α} (h : Stops f form.children t n error t' n') :
    form.mapM f t n = ((.error error, t'), n') := by
  have hlist := h.mapM
  rw [← Form.children_mapM, ← bind_pure_comp] at hlist
  rcases (form.mapM f).ok_or_error t n with ⟨form', t₁, n₁, hrun⟩ | ⟨error', t₁, n₁, hrun⟩
  · rw [Attempt.bind_ok _ hrun] at hlist
    cases hlist
  · rw [Attempt.bind_error _ hrun] at hlist
    cases hlist
    exact hrun

end Attempts

/-! ### Rebuilding by identities -/

/-- `b` stands in the place of `a`: it is the very same node, and one of the old ones if it is not `a` itself. -/
def Expr.Stands (old : List Expr) (a b : Expr) : Prop := a.same b = true ∧ (b = a ∨ b ∈ old)

theorem Expr.same_refl (e : Expr) : e.same e = true := by simp [same]

theorem Expr.same_symm {a b : Expr} (h : a.same b = true) : b.same a = true := by
  rw [same, beq_iff_eq] at h ⊢
  exact h.symm

theorem Expr.stands_refl (old as : List Expr) : List.Forall₂ (Expr.Stands old) as as :=
  List.forall₂_same.2 fun a _ => ⟨a.same_refl, .inl rfl⟩

theorem Expr.stands_of_sameOption {old : List Expr} {a b : Option Expr} (h : sameOption a b = true)
    (hold : ∀ e ∈ b.toList, e ∈ old) : Option.Rel (Stands old) a b := by
  cases a with
  | none =>
    cases b with
    | none => exact .none
    | some b => cases h
  | some a =>
    cases b with
    | none => cases h
    | some b => exact .some ⟨h, .inr (hold b (by simp))⟩

theorem Expr.Stands.mono {old old' : List Expr} {a b : Expr} (h : Stands old a b) (hold : ∀ e ∈ old, e ∈ old') :
    Stands old' a b :=
  ⟨h.1, h.2.imp_right (hold b)⟩

/-- The clause is kept when the parts in its place are the very same. -/
def Clause.KeptAs (c d : Clause Expr) : Prop :=
  Expr.sameOption d.filter c.filter = true → d.body.same c.body = true → d = c

/-- The rules for making nodes, over lower bounds of the identities that are not handed out. -/
abbrev drawing : Logic (Fresh .node) Nat := State.logic fun k (n : Supply .node) => k ≤ n.next

theorem Clause.withParts_keeps {c m : Clause Expr} {T : Expr → Expr → Prop} (h : Clause.Rel T c m) (k : Nat) :
    drawing.reaches k (c.withParts m.filter m.body) fun _ d =>
      Clause.Rel (fun _ _ => True) c d ∧ List.Forall₂ (Expr.Stands c.children) m.children d.children ∧ c.KeptAs d := by
  unfold withParts
  split
  · next hsame =>
    obtain ⟨hfilter, hbody⟩ := Bool.and_eq_true_iff.1 hsame
    refine drawing.ofPure fun _ _ => ⟨?_, ?_, fun _ _ => rfl⟩
    · exact ⟨rfl, rfl, optionRel_imp (optionRel_of_eq rfl) fun _ _ _ _ => trivial, trivial⟩
    · refine List.rel_append (forall₂_toList (Expr.stands_of_sameOption hfilter ?_)) (.cons ⟨hbody, .inr ?_⟩ .nil)
      · exact fun e he => List.mem_append_left _ he
      · exact List.mem_append_right _ (by simp)
  · next hsame =>
    intro k₁ _ n hn
    refine ⟨n.next + 1, by omega, le_rfl, ?_, Expr.stands_refl _ _, fun hfilter hbody => absurd ?_ hsame⟩
    · exact ⟨rfl, rfl, optionRel_imp h.filter fun _ _ _ _ => trivial, trivial⟩
    · exact Bool.and_eq_true_iff.2 ⟨hfilter, hbody⟩

/-- A form of the shape of `old` takes over the clauses of `old` where it can. -/
theorem Form.keepClauses_keeps {old form : Form Expr} {T : Expr → Expr → Prop} (hshape : Form.Rel T old form) (k : Nat) :
    drawing.reaches k (old.keepClauses form) fun _ form' =>
      Form.Rel (fun _ _ => True) old form' ∧ List.Forall₂ (Expr.Stands old.children) form.children form'.children ∧
        List.Forall₂ Clause.KeptAs old.clauses form'.clauses := by
  have hkind : Form.Rel (fun _ _ => True) old form := hshape.mono fun _ _ _ => trivial
  cases hshape with
  | @tryCatch a b cs ds x y f g _ hs _ _ =>
    let R : Nat → Clause Expr × Clause Expr → Clause Expr → Prop := fun _ p d =>
      Clause.Rel (fun _ _ => True) p.1 d ∧ List.Forall₂ (Expr.Stands p.1.children) p.2.children d.children ∧ p.1.KeptAs d
    have hlen : cs.length = ds.length := hs.length_eq
    refine drawing.ofBind (drawing.mapM_list (R := R) (k := k) (fun _ _ _ _ _ h => h) ?_) fun _ _ ds' hds' =>
      drawing.ofPure fun _ _ => ?_
    · rintro ⟨c, d⟩ hp k₁ _
      exact Clause.withParts_keeps ((List.forall₂_iff_zip.1 hs).2 hp) k₁
    · have hold : List.Forall₂ (fun c d => Clause.Rel (fun _ _ => True) c d ∧ c.KeptAs d) cs ds' := by
        rw [← List.map_fst_zip hlen.le]
        exact List.forall₂_map_left_iff.2 (hds'.imp fun _ _ h => ⟨h.1, h.2.2⟩)
      have hnew : List.Forall₂ (fun d d' => List.Forall₂ (Expr.Stands (Form.tryCatch a cs x f).children) d.children d'.children)
          ds ds' := by
        rw [← List.map_snd_zip hlen.ge]
        refine List.forall₂_map_left_iff.2 (forall₂_imp hds' fun p hp _ h => h.2.1.imp fun _ _ hstands => hstands.mono ?_)
        exact fun e he => mem_children_of_clause (List.of_mem_zip hp).1 he
      cases hkind with
      | tryCatch ha _ hx hf =>
        refine ⟨.tryCatch ha (hold.imp fun _ _ h => h.1) hx hf, .cons ⟨b.same_refl, .inl rfl⟩ ?_, hold.imp fun _ _ h => h.2⟩
        exact List.rel_append (List.rel_append (List.rel_flatMap hnew fun _ _ h => h) (Expr.stands_refl _ _))
          (Expr.stands_refl _ _)
  | _ => exact drawing.ofPure fun _ _ => ⟨hkind, Expr.stands_refl _ _, .nil⟩

theorem Expr.forall₂_same_iff {as bs : List Expr} :
    List.Forall₂ (fun a b => a.same b = true) as bs ↔ as.map (·.id) = bs.map (·.id) := by
  rw [← List.forall₂_eq_eq_eq, List.forall₂_map_left_iff, List.forall₂_map_right_iff]
  simp only [same, beq_iff_eq]

/-- **Rebuilding**: the node itself when its sub-expressions came back, and otherwise a new node of its kind and type, with
what came back in the places of its sub-expressions. -/
theorem Expr.rebuild_run {e : Expr} {form : Form Expr} {T : Expr → Expr → Prop} (hshape : Form.Rel T e.form form)
    (n : Supply .node) :
    List.Forall₂ (fun a b => a.same b = true) e.form.children form.children ∧ e.rebuild form n = (e, n) ∨
    ¬ List.Forall₂ (fun a b => a.same b = true) e.form.children form.children ∧ ∃ r n' k, e.rebuild form n = (r, n') ∧
      n.next ≤ k ∧ r.id = .made k ∧ r.ty = e.ty ∧ Form.Rel (fun _ _ => True) e.form r.form ∧
        List.Forall₂ (Stands e.form.children) form.children r.form.children ∧
          List.Forall₂ Clause.KeptAs e.form.clauses r.form.clauses := by
  rw [forall₂_same_iff]
  by_cases hsame : e.form.children.map (·.id) = form.children.map (·.id)
  · refine .inl ⟨hsame, ?_⟩
    rw [rebuild, if_pos (by simpa using hsame)]
    rfl
  · refine .inr ⟨hsame, ?_⟩
    obtain ⟨k, hk, hn, hkind, hparts, hclauses⟩ := Form.keepClauses_keeps hshape n.next n.next le_rfl n le_rfl
    rw [rebuild, if_neg (by simpa using hsame)]
    exact ⟨_, _, _, rfl, hk.trans hn, rfl, rfl, hkind, hparts, hclauses⟩

/-- Mapping the sub-expressions of a node makes the attempts on the list of its sub-expressions, in order, and ends with the
first that fails. When all succeed, the result is the node itself exactly when each gave its sub-expression back, and then
nothing is made. Otherwise it is a node of the same kind, data and type, with what came back in the places of the
sub-expressions, and with the very clauses whose parts came back. Where identities tell sub-expressions from results, its
sub-expressions are the results. -/
theorem mapChildren_follows_children {ε σ : Type} (f : Expr → Attempt ε σ Expr) (e : Expr) (t : σ) (n : Supply .node)
    (draws : ∀ c t n, n.next ≤ (f c t n).2.next) (made : ∀ k, e.id = .made k → k < n.next) :
    (∃ error t' n', Stops f e.form.children t n error t' n' ∧ e.mapChildren f t n = ((.error error, t'), n')) ∨
    ∃ results t' n' r n'', Calls f e.form.children t n results t' n' ∧ e.mapChildren f t n = ((.ok r, t'), n'') ∧
      (r.same e = true ↔ List.Forall₂ (fun a b => a.same b = true) e.form.children results) ∧
      (r.same e = true → r = e ∧ n'' = n') ∧
      (r.same e = false → r.ty = e.ty ∧ Form.Rel (fun _ _ => True) e.form r.form ∧
        List.Forall₂ (fun a b => a.same b = true) results r.form.children ∧
        List.Forall₂ Clause.KeptAs e.form.clauses r.form.clauses ∧
        ((∀ a ∈ e.form.children, ∀ b ∈ results, a.same b = true → a = b) → r.form.children = results)) := by
  rcases calls_or_stops f e.form.children t n with ⟨results, t', n', hcalls⟩ | ⟨error, t', n', hstops⟩
  · obtain ⟨form, hmap, rfl, hshape⟩ := hcalls.mapForm
    have hrebuild : e.mapChildren f t n = ((.ok (e.rebuild form n').1, t'), (e.rebuild form n').2) :=
      Attempt.bind_ok _ hmap
    refine .inr ⟨form.children, t', n', _, _, hcalls, hrebuild, ?_⟩
    rcases Expr.rebuild_run hshape n' with ⟨hsame, hrun⟩ | ⟨hother, r, n'', k, hrun, hk, hid, hty, hkind, hparts, hclauses⟩
    · rw [hrun]
      refine ⟨iff_of_true e.same_refl hsame, fun _ => ⟨rfl, rfl⟩, fun hne => ?_⟩
      rw [e.same_refl] at hne
      cases hne
    · -- the identity of a node that is made now is not one that was handed out before
      have hnew : r.same e = false := by
        have hle := hcalls.next_le draws
        simp only [Expr.same, beq_eq_false_iff_ne, hid]
        intro h
        have := made k h.symm
        omega
      rw [hrun, hnew]
      refine ⟨iff_of_false Bool.false_ne_true hother, fun h => absurd h Bool.false_ne_true, fun _ => ?_⟩
      refine ⟨hty, hkind, hparts.imp fun _ _ h => h.1, hclauses, fun htell => ?_⟩
      have heq : List.Forall₂ (· = ·) form.children r.form.children := by
        refine forall₂_imp hparts fun b hb a hstands => ?_
        obtain ⟨hsame, rfl | hold⟩ := hstands
        · rfl
        · exact (htell a hold b hb (Expr.same_symm hsame)).symm
      rw [List.forall₂_eq_eq_eq] at heq
      exact heq.symm
  · exact .inl ⟨error, t', n', hstops, Attempt.bind_error _ hstops.mapForm⟩

/-- A body with two clauses is visited in order, and so is the filter of the first clause before its body. When only the body of
the second clause is replaced, the first clause is kept; and a failure at the body of the first clause ends the visits. -/
theorem mapChildren_follows_children_twoClauses :
    let kept : Clause Expr := ⟨1, .exception, none, some (.boolean true), .smallInteger 7⟩
    let e : Expr := ⟨.made 0, .int, .tryCatch (.smallInteger 1) [kept, ⟨2, .exception, none, none, .smallInteger 8⟩] none none⟩
    let f (last : Int32) : Expr → Attempt String (List NodeId) Expr := fun c visited n =>
      if c.id = .smallInt last then ((.error "stop", visited ++ [c.id]), n)
      else ((.ok (if c.id = .smallInt 8 then .smallInteger 9 else c), visited ++ [c.id]), n)
    (∃ r n' d, e.mapChildren (f 0) [] ⟨3⟩ = ((.ok r, [.smallInt 1, .truth true, .smallInt 7, .smallInt 8]), n') ∧
      r.same e = false ∧ r.ty = .int ∧ r.form.children = [.smallInteger 1, .boolean true, .smallInteger 7, .smallInteger 9] ∧
        r.form.clauses = [kept, d]) ∧
      e.mapChildren (f 7) [] ⟨3⟩ = ((.error "stop", [.smallInt 1, .truth true, .smallInt 7]), ⟨3⟩) := by
  intro kept e f
  have hdraws : ∀ last c t n, n.next ≤ (f last c t n).2.next := by
    intro last c t n
    simp only [f]
    split <;> exact le_rfl
  have hmade : ∀ k, e.id = .made k → k < 3 := by
    intro k hk
    cases hk
    decide
  constructor
  · rcases mapChildren_follows_children (f 0) e [] ⟨3⟩ (hdraws 0) hmade with
      ⟨_, _, _, hstops, _⟩ | ⟨_, _, _, r, _, hcalls, hrun, hiff, _, hother⟩
    · cases hstops.mapM
    · cases hcalls.mapM
      have hnew : r.same e = false := by
        rw [Bool.eq_false_iff]
        exact fun h => absurd (Expr.forall₂_same_iff.1 (hiff.1 h)) (by decide)
      obtain ⟨hty, _, _, hclauses, _⟩ := hother hnew
      cases hrun
      cases hclauses with
      | cons hkept _ => exact ⟨_, _, _, rfl, hnew, hty, rfl, by rw [← hkept rfl rfl]; rfl⟩
  · rcases mapChildren_follows_children (f 7) e [] ⟨3⟩ (hdraws 7) hmade with
      ⟨_, _, _, hstops, hrun⟩ | ⟨_, _, _, _, _, hcalls, _⟩
    · cases hstops.mapM
      exact hrun
    · cases hcalls.mapM

end TypedTree
