import TypedTree.Proofs.Typing

/-!
# No variable escapes its binder

What a visit makes of a tree has no free variables beyond those of the tree. Most steps only take sub-expressions from
places where nothing is bound (`Free.of_plain`). Three leave a scope behind, each for a reason of its own: the throwing body
of a function literal is taken out when it does not refer to the parameters, a body is inlined with all parameters
replaced, and a catch clause loses a binding that it does not refer to.
-/

namespace TypedTree

variable {x : Var}

/-! ### Places where nothing is bound -/

section

variable {e n r c : Expr}

/-- The form binds no variables. -/
def Form.IsPlain {α : Type} (form : Form α) : Prop := form.scoped = form.map ([], ·)

theorem Free.of_plain (hplain : n.form.IsPlain) (hc : c ∈ n.form.children) (hx : Free x c) : Free x n := by
  have hscoped : ([], c) ∈ n.form.scoped.children := by
    rw [hplain, Form.children_map]
    exact List.mem_map_of_mem hc
  exact .child hscoped List.not_mem_nil hx

/-- A variable that is free in a node which is no reference is free in a sub-expression. -/
theorem Free.exists_child (h : Free x n) (hvar : ∀ y, n.form ≠ .var y) : ∃ c ∈ n.form.children, Free x c := by
  obtain hv | ⟨p, hp, hx, _⟩ := free_iff.1 h
  · exact absurd hv (hvar x)
  · exact ⟨p.2, Form.mem_children_of_scoped hp, hx⟩

theorem Expr.IsLeaf.not_free (h : r.IsLeaf) : ¬ Free x r := by
  intro hx
  cases h with
  | constant hf | defaultOf hf =>
    obtain ⟨c, hc, _⟩ := hx.exists_child (by rw [hf]; simp)
    rw [hf] at hc
    cases hc
  | throw hf hv =>
    obtain ⟨c, hc, hx⟩ := hx.exists_child (by rw [hf]; simp)
    obtain rfl : c = _ := by simpa [hf, Form.children] using hc
    obtain ⟨d, hd, _⟩ := hx.exists_child (by rw [hv]; simp)
    rw [hv] at hd
    cases hd

theorem Form.isPlain_of_operands {form : Form Expr} (h : c ∈ form.operands) : form.IsPlain := by
  cases form with
  | lambda | block | tryCatch => cases h
  | _ => rfl

end

/-! ### Steps -/

namespace Optimizer

variable {σ κ : Type} {o : Optimizer σ κ} {cx : Context} {e n r : Expr}

theorem Chooses.free {b : Expr} (h : o.Chooses n b) (hx : Free x b) : Free x n := by
  have hmem := h.mem
  cases h with
  | conditional hf | logical hf | case hf | fallback hf => exact hx.of_plain (by rw [hf]; rfl) hmem
  | body hf =>
    refine .child ?_ List.not_mem_nil hx
    rw [hf, Form.mem_scoped_tryCatch]
    exact .inl rfl

theorem Throws.free {t : Expr} (h : o.Throws n t) (hx : Free x t) : Free x n := by
  cases h with
  | operand hops =>
    have ht : t ∈ n.form.operands := by rw [hops]; simp
    exact hx.of_plain (Form.isPlain_of_operands ht) (Form.mem_children_of_operands ht)
  | conditional hf | logical hf | switch hf | typeTest hf | convert hf =>
    exact hx.of_plain (by rw [hf]; rfl) (by rw [hf]; simp [Form.children])
  | caseTest hf _ ht =>
    refine hx.of_plain (by rw [hf]; rfl) ?_
    rw [hf]
    exact (mem_of_caseTests (by rw [ht]; exact List.mem_append_right _ List.mem_cons_self)).1
  | body hf hc hunused =>
    refine Free.of_plain (by rw [hf]; rfl) (by rw [hf]; exact List.mem_cons_self) ?_
    exact .child (by rw [hc]; exact List.mem_singleton_self _) (fun hp => hunused x hp hx) hx

theorem Simplified.free {c d : Clause Expr} (h : o.Simplified d c) {e : Expr} (he : e ∈ d.children) (hx : Free x e)
    (hd : x ∉ d.binding.toList) : x ∉ c.binding.toList := by
  rw [h.binding] at hd
  split at hd
  · -- The binding that was dropped is free in no part of the clause, so it is another variable.
    next hunused =>
    intro hc
    obtain ⟨y, hy, hfree⟩ := (Option.any_eq_true _ _).1 hunused
    obtain rfl : x = y := by simpa [hy] using hc
    have : x ∈ freeVars c.children := mem_freeVars.2 ⟨e, h.children he, hx⟩
    simp [isFreeIn, this] at hfree
  · exact hd

/-- **One step** adds no free variable. -/
theorem Step.free (h : o.Step n cx r) (hx : Free x r) : Free x n := by
  cases h with
  | kept => exact hx
  | threw ht hr => exact ht.free (hr.free hx)
  | @threwAfter pre post t t' r hops _ _ hr _ hform =>
    have hoperand : ∀ c ∈ pre ++ t :: post, Free x c → Free x n := fun c hc hx =>
      hx.of_plain (Form.isPlain_of_operands (hops ▸ hc)) (Form.mem_children_of_operands (hops ▸ hc))
    obtain ⟨c, hc, hx⟩ := hx.exists_child (by rw [hform]; simp)
    rw [hform, Form.children, List.mem_append, List.mem_filter, List.mem_singleton] at hc
    obtain ⟨hc, _⟩ | rfl := hc
    · exact hoperand c (by simp [hc]) hx
    · exact hoperand t (by simp) (hr.free hx)
  | called _ _ _ _ ha => exact absurd hx ha.isLeaf.not_free
  | folded _ hc => exact absurd hx hc.isLeaf.not_free
  | decided b => exact absurd hx (Expr.IsLeaf.constant rfl).not_free
  | branch hb hr => exact hb.free (hr.free hx)
  | defaulted _ _ _ _ hform => exact absurd hx (Expr.IsLeaf.defaultOf hform).not_free
  | @flattened test whenTrue whenFalse innerTest innerTrue innerFalse both r hform htrue _ _ _ _ _ _ _ hboth _ hr =>
    have houter : ∀ c ∈ [test, whenTrue, whenFalse], Free x c → Free x n :=
      fun c hc hx => hx.of_plain (by rw [hform]; rfl) (by rw [hform]; exact hc)
    have hinner : ∀ c ∈ [innerTest, innerTrue, innerFalse], Free x c → Free x n := fun c hc hx =>
      houter whenTrue (by simp) (hx.of_plain (by rw [htrue]; rfl) (by rw [htrue]; exact hc))
    obtain ⟨c, hc, hx⟩ := hx.exists_child (by rw [hr]; simp)
    simp only [hr, Form.children, List.mem_cons, List.not_mem_nil, or_false] at hc
    obtain rfl | rfl | rfl := hc
    · obtain ⟨d, hd, hx⟩ := hx.exists_child (by rw [hboth]; simp)
      simp only [hboth, Form.children, List.mem_cons, List.not_mem_nil, or_false] at hd
      obtain rfl | rfl := hd
      · exact houter d (by simp) hx
      · exact hinner d (by simp) hx
    · exact hinner c (by simp) hx
    · exact houter c (by simp) hx
  | simplified hform hsimplified _ _ hr =>
    obtain hvar | ⟨p, hp, hx, hb⟩ := free_iff.1 hx
    · rw [hr] at hvar; cases hvar
    · have hscoped : ∀ q, q ∈ (Form.tryCatch _ _ _ _).scoped.children → Free x q.2 → x ∉ q.1 → Free x n :=
        fun q hq hx hb => .child (by rw [hform]; exact hq) hb hx
      rw [hr, Form.mem_scoped_tryCatch] at hp
      obtain rfl | ⟨d, hd, e, he, rfl⟩ | hrest := hp
      · exact hscoped ([], _) (Form.mem_scoped_tryCatch.2 (.inl rfl)) hx hb
      · obtain ⟨c, hc, hcd⟩ := exists_of_sublistForall₂ hsimplified hd
        refine hscoped (c.binding.toList, e) ?_ hx (hcd.free he hx hb)
        exact Form.mem_scoped_tryCatch.2 (.inr (.inl ⟨c, hc, e, hcd.children he, rfl⟩))
      · exact hscoped p (Form.mem_scoped_tryCatch.2 (.inr (.inr hrest))) hx hb

/-- Every parameter is replaced. -/
theorem exists_of_inlined {facts : Facts} {params : List Var} {args : List Expr} {s : Substitution}
    (hlength : params.length = args.length) (h : List.Forall₂ (IsLiteral facts) (params.zip args) s)
    (hx : x ∈ params) : ∃ p ∈ s, p.1 = x := by
  have hfst : (params.zip args).map (·.1) = params := List.map_fst_zip hlength.le
  rw [← hfst, List.mem_map] at hx
  obtain ⟨p, hp, rfl⟩ := hx
  obtain ⟨q, hq, hpq, _⟩ := exists_left_of_forall₂ h.flip hp
  exact ⟨q, hq, hpq⟩

/-- **Inlining** adds no free variable. -/
theorem Inlines.free {reduced : Expr} (h : o.Inlines n reduced) (hx : Free x reduced) : Free x n := by
  obtain ⟨callee, params, body, args, _, b, hform, hcallee, _, ⟨hlength, _, s, hlit, hsub⟩, hr⟩ := h
  obtain ⟨hbody, hdom⟩ | ⟨q, hq, hx⟩ := hsub.free (hr.free hx)
  · have hparams : x ∉ params := by
      intro hmem
      obtain ⟨q, hq, hqx⟩ := exists_of_inlined hlength hlit hmem
      exact hdom q hq hqx
    refine Free.of_plain (by rw [hform]; rfl) (by rw [hform]; exact List.mem_cons_self) ?_
    exact .child (by rw [hcallee]; exact List.mem_singleton_self _) hparams hbody
  · obtain ⟨p, _, _, value, c, _, _, hc, hrl⟩ := exists_left_of_forall₂ hlit hq
    exact absurd (hrl.free hx) (Expr.IsLeaf.constant hc).not_free

/-- **Visits** add no free variable. -/
theorem Visits.free (h : o.Visits cx e r) (hx : Free x r) : Free x e := by
  induction h with
  | skipped => exact hx
  | settled _ hrel _ _ hstep ih =>
    refine (hstep.free hx).of_rel (o.facts.rel_of_inContext hrel) ?_
    rintro a b ⟨cx, hR⟩
    exact ih _ _ hR
  | inlined _ hrel _ hin _ ih ihr =>
    refine (hin.free (ihr hx)).of_rel (o.facts.rel_of_inContext hrel) ?_
    rintro a b ⟨cx, hR⟩
    exact ih _ _ hR

theorem Visits.freeVars_subset (h : o.Visits cx e r) : freeVars [r] ⊆ freeVars [e] := by
  intro x hx
  simp only [mem_freeVars, List.mem_singleton, exists_eq_left] at hx ⊢
  exact h.free hx

end Optimizer

open Store

/-- **No variable escapes**: whatever the context, the settings, the catalog and the evaluators, the result of a visit or of
a whole run has no free variables but those of the tree. -/
theorem no_variable_escapes {σ κ : Type} (catalog : Catalog) (evaluators : Evaluators σ κ) (settings : Settings)
    (e : Expr) (cx : Context) (s : Progress σ) (identified : e.Identified s.nodes) :
    let o : Optimizer σ κ := ⟨catalog.facts, evaluators, .none, settings⟩
    (∀ r s', o.visit e cx s = .ok r s' → freeVars [r] ⊆ freeVars [e]) ∧
      ∀ r s', o.optimize e s = .ok r s' → freeVars [r] ⊆ freeVars [e] := by
  intro o
  constructor
  · intro r s' hrun
    exact (Optimizer.visits_of_visit Hooks.none_transparent identified hrun).freeVars_subset
  · intro r s' hrun
    obtain ⟨rfl | h, _⟩ := Optimizer.visits_of_optimize Hooks.none_transparent identified hrun
    · exact List.Subset.refl _
    · exact h.freeVars_subset

/-- A function literal that calls a method of the library on its parameter and handles all exceptions by a variable from
outside; it is invoked on a text. -/
def handledCall : Fresh .node Expr := do
  let x : Var := ⟨0, "x", .string⟩
  let y : Var := ⟨1, "y", .string⟩
  let method : Member := ⟨"f", .object, .method, true, [⟨"text", .string⟩], .string, none⟩
  let call ← Expr.call none method [← Expr.var x]
  let clause ← Clause.make .exception (some ⟨2, "raised", .exception⟩) none (← Expr.var y)
  let body ← Expr.tryCatch call [clause] none none
  Expr.invoke (← Expr.lambda [x] body) [← Expr.string "a"]

theorem handledCall_reaches : making.reaches initial handledCall fun st e => e ∈ st := by
  refine making.ofBind (Expr.make_mem rfl (List.forall_mem_nil _)) fun st₁ _ x hx => ?_
  refine making.ofBind (Expr.make_mem rfl (by simpa [Form.children] using hx)) fun st₂ _ call hcall => ?_
  refine making.ofBind (Expr.make_mem rfl (List.forall_mem_nil _)) fun st₃ hst₃ y hy => ?_
  refine making.ofBind Clause.make_reaches ?_
  rintro st₄ hst₄ clause ⟨hclause, _, _, _, hfilter, hbody⟩
  refine making.ofBind (Expr.make_reaches ?_ (by simpa [Form.clauses] using hclause)) ?_
  · simpa [Form.children, Clause.children, hfilter, hbody] using
      ⟨mem_of_le (hst₃.trans hst₄) hcall, mem_of_le hst₄ hy⟩
  rintro st₅ _ body ⟨hbody, _⟩
  refine making.ofBind (Expr.make_mem rfl (by simpa [Form.children] using hbody)) fun st₆ _ callee hcallee => ?_
  refine making.ofBind (Expr.make_mem rfl (List.forall_mem_nil _)) fun st₇ hst₇ arg harg => ?_
  refine Expr.make_mem rfl ?_
  simpa [Form.children] using ⟨mem_of_le hst₇ hcallee, harg⟩

theorem no_variable_escapes_handledCall :
    let e := (handledCall ⟨0⟩).1
    let s : Progress Console := ⟨(handledCall ⟨0⟩).2, ⟨⟨0⟩, .empty⟩, .empty⟩
    e.Identified s.nodes ∧ ∃ r s', Optimizer.bare.optimize e s = .ok r s' ∧ s'.tally.total = 2 ∧
      freeVars [r] ⊆ freeVars [e] := by
  intro e s
  have identified : e.Identified s.nodes := Expr.identified_of_reaches handledCall_reaches _
  have hok : Run.passes (fun _ s' => s'.tally.total == 2) (Optimizer.bare.optimize e s) = true := by decide +kernel
  obtain ⟨r, s', hrun, htotal⟩ := Run.exists_of_passes hok
  exact ⟨identified, r, s', hrun, by simpa using htotal,
    (no_variable_escapes .empty Registry.empty.natives .standard e .plain s identified).2 r s' hrun⟩

end TypedTree
