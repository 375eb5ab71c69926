import TypedTree.Proofs.Scope

/-!
# What inlining replaces

Inlining puts literals in the place of the parameters of a function literal. A literal refers to no variable, so the free
variables of the result are those of the body without the parameters (`Substituted.free_iff_of_closed`): every free occurrence
of a parameter is replaced, the occurrences that are bound again are not, and nothing is captured.

Where there is nothing to replace, nothing is made: a tree in which none of the variables is free is given back as the very
node it is (`Expr.substitute_self`), and so is every sub-expression on the way. A tree with a free parameter is never given
back, since the result has fewer free variables.
-/

namespace TypedTree

/-! ### Nothing to replace -/

section Mapping

variable {α β : Type} {m : Type → Type} [Monad m] [LawfulMonad m] {g : α → β}

theorem optionMapM_pure (a : Option α) : a.mapM (fun b => (pure (g b) : m β)) = pure (a.map g) := by
  cases a <;> simp

theorem Form.mapM_pure (form : Form α) : form.mapM (fun a => (pure (g a) : m β)) = pure (form.map g) := by
  cases form <;> simp [Form.mapM, Form.map, Case.mapM, Case.map, Clause.mapM, Clause.map, optionMapM_pure]

/-- Mapping a form in order does nothing when it does nothing to the sub-expressions. -/
theorem Form.mapM_of_pure {f : α → m β} {form : Form α} (h : ∀ a ∈ form.children, f a = pure (g a)) :
    form.mapM f = pure (form.map g) :=
  calc form.mapM f = (form.map f).mapM id := (form.mapM_map (f := id)).symm
    _ = (form.map fun a => pure (g a)).mapM id := by rw [form.map_congr h]
    _ = form.mapM fun a => pure (g a) := form.mapM_map
    _ = pure (form.map g) := form.mapM_pure

end Mapping

theorem lookup_of_not_replaced {s : Substitution} {x : Var} (h : ∀ p ∈ s, p.1 ≠ x) : s.lookup x = none := by
  rw [List.lookup_eq_none_iff]
  intro p hp
  simpa using (h p hp).symm

/-- **Sharing**: a tree in which none of the variables is free is given back as it is. -/
theorem Expr.substitute_self (e : Expr) (s : Substitution) (h : ∀ p ∈ s, ¬ Free p.1 e) : e.substitute s = pure e := by
  induction e using inductionOn generalizing s with
  | node e ih =>
    by_cases hnil : s = []
    · subst hnil
      rw [substitute, recurse_eq]
      rfl
    by_cases hvar : ∃ x, e.form = .var x
    · obtain ⟨x, hx⟩ := hvar
      have hkept : ∀ p ∈ s, p.1 ≠ x := by
        rintro p hp rfl
        exact h p hp (.var hx)
      rw [substitute_var hx hnil, lookup_of_not_replaced hkept, Option.getD_none]
    · have hvar : ∀ x, e.form ≠ .var x := fun x hx => hvar ⟨x, hx⟩
      have hchild : ∀ p ∈ e.form.scoped.children, p.2.substitute (s.without p.1) = pure p.2 := by
        intro p hp
        refine ih p.2 (Form.mem_children_of_scoped hp) _ fun q hq hfree => ?_
        -- What is left to replace below a binder is not bound by it, so it would be free in the node.
        obtain ⟨hq, hbound⟩ := List.mem_filter.1 hq
        exact h q hq (.child hp (by simpa using hbound) hfree)
      rw [substitute_node hvar hnil, Form.mapM_of_pure hchild, Form.map_snd_scoped, pure_bind, rebuild_self rfl]

/-! ### The free variables of the result -/

variable {x : Var}

/-- A free variable that is not replaced stays free. -/
theorem Substituted.free_of_kept {s : Substitution} {e r : Expr} (h : Substituted s e r) (hx : Free x e)
    (hs : ∀ p ∈ s, p.1 ≠ x) : Free x r := by
  induction h with
  | done => exact hx
  | @var s e y hf =>
    obtain hvar | ⟨q, hq, _⟩ := free_iff.1 hx
    · obtain rfl : y = x := by rw [hf] at hvar; cases hvar; rfl
      rw [lookup_of_not_replaced hs]
      exact hx
    · simp [hf, Form.scoped, Form.map, Form.children] at hq
  | @node s e r R hvar _ hrel _ ih =>
    obtain hf | ⟨p, hp, hx, hb⟩ := free_iff.1 hx
    · exact absurd hf (hvar x)
    · have hp' : (p.1, p) ∈ e.form.scoped.scoped.children := by
        rw [Form.scoped_scoped, Form.children_map]
        exact List.mem_map_of_mem hp
      obtain ⟨q, hq, hbound, hR⟩ := exists_left_of_forall₂ hrel.scoped.children.flip hp'
      have hkept : ∀ p' ∈ s.without p.1, p'.1 ≠ x := fun p' hp' => hs p' (List.mem_of_mem_filter hp')
      exact .child hq (hbound ▸ hb) (ih _ _ hR hx hkept)

/-- **Substitution** of closed trees takes away the replaced variables, and no others. -/
theorem Substituted.free_iff_of_closed {s : Substitution} {e r : Expr} (h : Substituted s e r)
    (hclosed : ∀ p ∈ s, ¬ Free x p.2) : Free x r ↔ Free x e ∧ ∀ p ∈ s, p.1 ≠ x := by
  constructor
  · intro hx
    obtain hkept | ⟨p, hp, hfree⟩ := h.free hx
    · exact hkept
    · exact absurd hfree (hclosed p hp)
  · rintro ⟨hx, hs⟩
    exact h.free_of_kept hx hs

theorem IsLiteral.not_free {facts : Facts} {p q : Var × Expr} (h : IsLiteral facts p q) : ¬ Free x q.2 := by
  obtain ⟨_, value, c, _, _, hc, hr⟩ := h
  intro hx
  exact (Expr.IsLeaf.constant hc).not_free (hr.free hx)

/-- The literals are for the parameters, in order. -/
theorem map_fst_of_literals {facts : Facts} {params : List Var} {args : List Expr} {s : Substitution}
    (hlength : params.length = args.length) (h : List.Forall₂ (IsLiteral facts) (params.zip args) s) :
    s.map (·.1) = params := by
  have hfst : List.Forall₂ (· = ·) ((params.zip args).map (·.1)) (s.map (·.1)) := by
    rw [List.forall₂_map_left_iff, List.forall₂_map_right_iff]
    exact h.imp fun _ _ hpq => hpq.1.symm
  rw [List.forall₂_eq_eq_eq, List.map_fst_zip hlength.le] at hfst
  exact hfst.symm

/-- **Inlining** takes away the parameters, and no other free variable. -/
theorem Inlined.free_iff {facts : Facts} {params : List Var} {body r : Expr} {args : List Expr}
    (h : Inlined facts params body args r) : Free x r ↔ Free x body ∧ x ∉ params := by
  obtain ⟨hlength, _, s, hlit, hsub⟩ := h
  have hclosed : ∀ p ∈ s, ¬ Free x p.2 := by
    intro p hp
    obtain ⟨_, _, hlit⟩ := exists_left_of_forall₂ hlit hp
    exact hlit.not_free
  rw [hsub.free_iff_of_closed hclosed, ← map_fst_of_literals hlength hlit, List.mem_map, not_exists]
  simp only [not_and]

theorem Inlined.ty_eq {facts : Facts} {params : List Var} {body r : Expr} {args : List Expr}
    (h : Inlined facts params body args r) (hbody : ∀ x, body.form = .var x → body.ty = x.ty) : r.ty = body.ty := by
  obtain ⟨_, _, s, hlit, hsub⟩ := h
  cases hsub with
  | done => rfl
  | @var _ _ x hf =>
    cases hl : s.lookup x with
    | none => rfl
    | some literal =>
      obtain ⟨_, _, hs, _⟩ := List.lookup_eq_some_iff.1 hl
      have hmem : (x, literal) ∈ s := by simp [hs]
      obtain ⟨p, _, hpx, _, _, _, _, _, hr⟩ := exists_left_of_forall₂ hlit hmem
      rw [Option.getD_some, hr.ty_eq, hbody x hf, ← hpx]
  | node _ hty => exact hty

/-! ### The body itself -/

/-- How the body is inlined: the literals are made first, then they are put in. -/
theorem inline?_eq_some {facts : Facts} {params : List Var} {body r : Expr} {args : List Expr} {nodes nodes' : Supply .node}
    (h : inline? facts params body args nodes = (some r, nodes')) :
    params.length = args.length ∧ ∃ s nodes₁, List.Forall₂ (IsLiteral facts) (params.zip args) s ∧
      body.substitute s nodes₁ = (r, nodes') := by
  unfold inline? at h
  split at h
  · next hargs =>
    obtain ⟨_, _, _, hlit⟩ := literals?_reaches facts (params.zip args) Store.initial _ le_rfl nodes (Store.initial_within nodes)
    simp only [bind, StateT.bind] at h
    split at h
    next found nodes₁ hrun =>
    rw [hrun] at hlit
    cases found with
    | none => cases h
    | some s =>
      refine ⟨hargs.1, s, nodes₁, (hlit s rfl).1, ?_⟩
      cases h
      rfl
  · cases h

/-- A body in which none of the parameters is free is inlined as it is. -/
theorem eq_of_inline? {facts : Facts} {params : List Var} {body r : Expr} {args : List Expr} {nodes nodes' : Supply .node}
    (h : inline? facts params body args nodes = (some r, nodes')) (hparams : ∀ x ∈ params, ¬ Free x body) : r = body := by
  obtain ⟨hlength, s, nodes₁, hlit, hrun⟩ := inline?_eq_some h
  have hfree : ∀ p ∈ s, ¬ Free p.1 body := by
    intro p hp
    refine hparams p.1 ?_
    rw [← map_fst_of_literals hlength hlit]
    exact List.mem_map_of_mem hp
  rw [body.substitute_self s hfree] at hrun
  exact (Prod.ext_iff.1 hrun).1.symm

open Store

/-- **Inlining** replaces the free occurrences of the parameters and shares the rest: the result refers to the variables of
the body except the parameters, it is the body itself exactly if the body refers to none of them, and it has the type of the
body, which only a body that is a mere reference with a type of its own can lose. -/
theorem inlining_replaces_free_parameters (facts : Facts) (params : List Var) (body : Expr) (args : List Expr)
    (nodes : Supply .node) (identified : body.Identified nodes) :
    ∀ r nodes', inline? facts params body args nodes = (some r, nodes') →
      (∀ x, x ∈ freeVars [r] ↔ x ∈ freeVars [body] ∧ x ∉ params) ∧
      (r.same body = true ↔ ∀ x ∈ params, x ∉ freeVars [body]) ∧
      ((∀ x, body.form = .var x → body.ty = x.ty) → r.ty = body.ty) := by
  intro r nodes' hrun
  obtain ⟨st, hst, hbody⟩ := identified
  obtain ⟨st', hle, _, hinlined⟩ := inline?_reaches facts hbody st le_rfl nodes hst
  rw [hrun] at hinlined
  obtain ⟨hr, hinlined⟩ := hinlined r rfl
  have hfree : ∀ x, x ∈ freeVars [r] ↔ x ∈ freeVars [body] ∧ x ∉ params := by
    intro x
    simp only [mem_freeVars, List.mem_singleton, exists_eq_left]
    exact hinlined.free_iff
  refine ⟨hfree, ⟨?_, ?_⟩, hinlined.ty_eq⟩
  · intro hsame x hx hmem
    obtain rfl : r = body := eq_of_same hr (mem_of_le hle hbody) hsame
    exact ((hfree x).1 hmem).2 hx
  · intro hparams
    have heq : r = body := by
      refine eq_of_inline? hrun fun x hx hxb => hparams x hx ?_
      exact mem_freeVars.2 ⟨body, List.mem_singleton_self _, hxb⟩
    rw [heq]
    exact beq_self_eq_true _

/-- The variable that `rebinding` refers to and binds again. -/
def raised : Var := ⟨0, "raised", .exception⟩

/-- A tree that refers to a variable, handles exceptions under the same name, and ends with a reference to another one. -/
def rebinding (other : Var) : Fresh .node Expr := do
  let body ← Expr.var raised
  let handler ← Expr.var raised
  let clause ← Clause.make .exception (some raised) none handler
  Expr.tryCatch body [clause] (some (← Expr.var other)) none

theorem rebinding_reaches (other : Var) : making.reaches initial (rebinding other) fun st e => e ∈ st := by
  refine making.ofBind (Expr.make_mem rfl (List.forall_mem_nil _)) fun st₁ _ body hbody => ?_
  refine making.ofBind (Expr.make_mem rfl (List.forall_mem_nil _)) fun st₂ hst₂ handler hhandler => ?_
  refine making.ofBind Clause.make_reaches ?_
  rintro st₃ hst₃ clause ⟨hclause, _, _, _, hfilter, hhandled⟩
  refine making.ofBind (Expr.make_mem rfl (List.forall_mem_nil _)) fun st₄ hst₄ cleanup hcleanup => ?_
  refine making.ofImp (Expr.make_reaches ?_ ?_) fun _ _ _ h => h.1
  · simpa [Form.children, Clause.children, hfilter, hhandled] using
      ⟨mem_of_le (hst₂.trans (hst₃.trans hst₄)) hbody, mem_of_le (hst₃.trans hst₄) hhandler, hcleanup⟩
  · simpa [Form.clauses] using clause_mem_of_le hst₄ hclause

/-- The reference in the body is replaced, the one in the handler is not: the clause is the very clause of the tree. -/
theorem inlining_replaces_free_parameters_rebinding :
    let other : Var := ⟨1, "other", .exception⟩
    let body := (rebinding other ⟨0⟩).1
    let nodes := (rebinding other ⟨0⟩).2
    let arg : Expr := ⟨.made 9, .exception, .constant .null⟩
    body.Identified nodes ∧ freeVars [body] = [other, raised] ∧
      ∃ r nodes', inline? Catalog.empty.facts [raised] body [arg] nodes = (some r, nodes') ∧
        (∀ x, x ∈ freeVars [r] ↔ x = other) ∧ r.same body = false ∧ r.ty = body.ty ∧
        r.form.clauses.map (·.id) = body.form.clauses.map (·.id) := by
  intro other body nodes arg
  have identified : body.Identified nodes := Expr.identified_of_reaches (rebinding_reaches other) _
  have hfree : freeVars [body] = [other, raised] := by decide +kernel
  have hclauses : ((inline? Catalog.empty.facts [raised] body [arg] nodes).1.any fun r =>
      r.form.clauses.map (·.id) == body.form.clauses.map (·.id)) = true := by decide +kernel
  generalize hrun : inline? Catalog.empty.facts [raised] body [arg] nodes = run at hclauses
  obtain ⟨found, nodes'⟩ := run
  obtain ⟨r, rfl, hr⟩ := (Option.any_eq_true _ _).1 hclauses
  obtain ⟨hvars, hsame, hty⟩ :=
    inlining_replaces_free_parameters Catalog.empty.facts [raised] body [arg] nodes identified r nodes' hrun
  refine ⟨identified, hfree, r, nodes', rfl, ?_, ?_, hty (fun x hx => by cases hx), by simpa using hr⟩
  · intro x
    rw [hvars x, hfree]
    simp only [List.mem_cons, List.not_mem_nil, or_false]
    constructor
    · rintro ⟨hx | hx, hne⟩
      · exact hx
      · exact absurd hx hne
    · rintro rfl
      exact ⟨.inl rfl, by decide⟩
  · rw [Bool.eq_false_iff, ne_eq, hsame, hfree]
    exact fun h => h raised (by simp) (by simp)

end TypedTree
