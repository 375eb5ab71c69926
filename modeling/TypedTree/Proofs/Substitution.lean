import TypedTree.Optimize.Invocation
import TypedTree.Proofs.Retyping

/-!
# What substitution does

`Substituted s e r` says that `r` is `e` with its free variables replaced as `s` says: below a place that binds variables
again the substitution is without them (`Form.scoped`), a reference is looked up, and every other node keeps its type
and its kind. Whether a node is made again or given back does not matter: in a store, a node that is given back because
its sub-expressions have the identities of the new ones is the node that would be made (`Expr.rebuild_reaches`).

Inlining substitutes literals, which are known arguments retyped to their parameters (`inline?_reaches`).
-/

namespace TypedTree

open Store

variable {st : Store}

/-! ### Rebuilding nodes -/

theorem Form.mem_children_of_clause {α : Type} {form : Form α} {c : Clause α} {e : α} (hc : c ∈ form.clauses)
    (he : e ∈ c.children) : e ∈ form.children := by
  cases form with
  | tryCatch body clauses cleanup onFault =>
    have : e ∈ clauses.flatMap Clause.children := List.mem_flatMap.2 ⟨c, hc, he⟩
    simp [children, this]
  | _ => cases hc

theorem Clause.withParts_reaches {c : Clause Expr} {filter : Option Expr} {body : Expr} (hc : c ∈ st.clauses)
    (hcc : ∀ e ∈ c.children, e ∈ st) (hf : ∀ e ∈ filter, e ∈ st) (hb : body ∈ st) :
    making.reaches st (c.withParts filter body) fun st' d =>
      d ∈ st'.clauses ∧ d.test = c.test ∧ d.binding = c.binding ∧ d.filter = filter ∧ d.body = body := by
  unfold withParts
  split
  · next h =>
    obtain ⟨hfs, hbs⟩ := Bool.and_eq_true_iff.1 h
    have hfilter : filter = c.filter :=
      eq_of_sameOption hf (fun e he => hcc e (by simp [Clause.children, Option.mem_def.1 he])) hfs
    have hbody : body = c.body := eq_of_same hb (hcc _ (by simp [Clause.children])) hbs
    exact making.ofPure fun _ hk => ⟨clause_mem_of_le hk hc, rfl, rfl, hfilter.symm, hbody.symm⟩
  · exact making.ofImp make_reaches fun _ _ _ h => ⟨h.1, h.2.2⟩

/-- A form of the shape of a node keeps its parts when it takes over the clauses of the node where it can. -/
theorem Form.keepClauses_reaches {e : Expr} {form : Form Expr} {T : Expr → Expr → Prop} (he : e ∈ st)
    (hshape : Form.Rel T e.form form) (hc : ∀ c ∈ form.children, c ∈ st) :
    making.reaches st (e.form.keepClauses form) fun st' form' =>
      Form.Rel (· = ·) form form' ∧ ∀ c ∈ form'.clauses, c ∈ st'.clauses := by
  have hclauses : ∀ c ∈ e.form.clauses, c ∈ st.clauses := fun c => st.clauses_mem he
  have hparts : ∀ c ∈ e.form.children, c ∈ st := fun c => child he
  generalize e.form = old at hshape hclauses hparts
  cases hshape with
  | @tryCatch a b cs ds x y f g _ hs _ _ =>
    let R : Store → Clause Expr × Clause Expr → Clause Expr → Prop :=
      fun st' p d => d ∈ st'.clauses ∧ Clause.Rel (· = ·) p.2 d
    have hR : Lasting R := fun _ _ hk _ _ h => ⟨clause_mem_of_le hk h.1, h.2⟩
    have hlen : cs.length = ds.length := hs.length_eq
    refine making.ofBind (making.mapM_list hR (k := st) ?_) fun st₁ _ ds' hds => making.ofPure fun _ hk => ?_
    · rintro ⟨c, d⟩ hp st₁ hst
      have hcs : c ∈ cs := (List.of_mem_zip hp).1
      have hds : d ∈ ds := (List.of_mem_zip hp).2
      have hcd : Clause.Rel T c d := (List.forall₂_iff_zip.1 hs).2 hp
      have hd : ∀ e ∈ d.children, e ∈ st₁ := fun e he => mem_of_le hst (hc e (mem_children_of_clause hds he))
      refine making.ofImp (Clause.withParts_reaches (clause_mem_of_le hst (hclauses c hcs))
        (fun a ha => mem_of_le hst (hparts a (mem_children_of_clause hcs ha)))
        (fun a ha => hd a (by simp [Clause.children, Option.mem_def.1 ha])) (hd _ (by simp [Clause.children]))) ?_
      rintro st₂ _ d' ⟨hd', ht, hb, hf, hbody⟩
      exact ⟨hd', hcd.test.symm.trans ht.symm, hcd.binding.symm.trans hb.symm, optionRel_of_eq hf.symm, hbody.symm⟩
    · have hds' : List.Forall₂ (fun d d' => d' ∈ st₁.clauses ∧ Clause.Rel (· = ·) d d') ds ds' := by
        rw [← List.map_snd_zip hlen.ge]
        exact List.forall₂_map_left_iff.2 hds
      refine ⟨.tryCatch rfl (hds'.imp fun _ _ h => h.2) (optionRel_of_eq rfl) (optionRel_of_eq rfl), ?_⟩
      intro d' hd'
      obtain ⟨d, _, h⟩ := exists_left_of_forall₂ hds' hd'
      exact clause_mem_of_le hk h.1
  | _ => exact making.ofPure fun _ _ => ⟨.refl _, by simp [Form.clauses]⟩

/-- A node that is given its own sub-expressions is not made again. -/
theorem Expr.rebuild_self {e : Expr} {form : Form Expr} (h : e.form.children = form.children) :
    e.rebuild form = pure e := by
  rw [rebuild, if_pos (by rw [h]; exact beq_self_eq_true _)]

/-- **Rebuilding**: the node has the type of the old one and the parts it was given. -/
theorem Expr.rebuild_reaches {e : Expr} {form : Form Expr} {T : Expr → Expr → Prop} (he : e ∈ st)
    (hshape : Form.Rel T e.form form) (hc : ∀ c ∈ form.children, c ∈ st) :
    making.reaches st (e.rebuild form) fun st' n => n ∈ st' ∧ n.ty = e.ty ∧ Form.Rel (· = ·) form n.form := by
  unfold rebuild
  split
  · next h =>
    have hids : e.form.children = form.children := eq_of_ids (fun c => child he) hc (by simpa using h)
    exact making.ofPure fun _ hk => ⟨mem_of_le hk he, rfl, hshape.eq_of_children hids⟩
  · refine making.ofBind (Form.keepClauses_reaches he hshape hc) fun st₁ hst form' ⟨hform, hcl⟩ => ?_
    have hparts : ∀ c ∈ form'.children, c ∈ st₁ := by
      intro c hc'
      obtain ⟨a, ha, rfl⟩ := hform.exists_left hc'
      exact mem_of_le hst (hc _ ha)
    refine making.ofImp (make_reaches hparts hcl) ?_
    exact fun _ _ n ⟨hn, _, hty, hf⟩ => ⟨hn, hty, hf ▸ hform⟩

/-! ### Substitution -/

section Scopes

variable {α β : Type}

@[simp] theorem Form.map_snd_scoped (form : Form α) : form.scoped.map (·.2) = form := by
  cases form <;> simp [Form.scoped, Form.map, Case.map, Clause.map, Function.comp_def]

theorem Form.mem_children_of_scoped {form : Form α} {p : List Var × α} (hp : p ∈ form.scoped.children) :
    p.2 ∈ form.children := by
  rw [← map_snd_scoped form, children_map]
  exact List.mem_map_of_mem hp

theorem Form.scoped_map (f : α → β) (form : Form α) :
    (form.map f).scoped = form.scoped.map fun p => (p.1, f p.2) := by
  cases form <;> simp [Form.scoped, Form.map, Case.map, Clause.map, Function.comp_def]

/-- A form that corresponds to one with scopes corresponds to the form. -/
theorem Form.rel_of_scoped {α β : Type} {f : Form α} {g : Form β} {R : List Var × α → β → Prop}
    (h : Form.Rel R f.scoped g) : Form.Rel (fun a b => ∃ bound, R (bound, a) b) f g := by
  have hsnd : Form.Rel (fun p b => ∃ bound, R (bound, p.2) b) f.scoped g := h.mono fun p _ hR => ⟨p.1, hR⟩
  rw [← Form.map_snd_scoped f]
  exact hsnd.map_left

end Scopes

/-- `r` is `e` with its free variables replaced as `s` says. -/
inductive Substituted : Substitution → Expr → Expr → Prop where
  /-- Nothing is left to replace. -/
  | done {e : Expr} : Substituted [] e e
  /-- A reference. -/
  | var {s : Substitution} {e : Expr} {x : Var} : e.form = .var x → Substituted s e ((s.lookup x).getD e)
  /-- Any other node, whose sub-expressions are replaced with what is not bound again in them. -/
  | node {s : Substitution} {e r : Expr} {R : List Var × Expr → Expr → Prop} : (∀ x, e.form ≠ .var x) →
      r.ty = e.ty → Form.Rel R e.form.scoped r.form → (∀ p c, R p c → Substituted (s.without p.1) p.2 c) →
      Substituted s e r

namespace Expr

theorem substitute_var {e : Expr} {x : Var} (h : e.form = .var x) {s : Substitution} (hs : s ≠ []) :
    e.substitute s = pure ((s.lookup x).getD e) := by
  rw [substitute, recurse_eq, h]
  simp [Form.map, hs]

theorem substitute_node {e : Expr} (h : ∀ x, e.form ≠ .var x) {s : Substitution} (hs : s ≠ []) :
    e.substitute s = (e.form.scoped.mapM fun p => p.2.substitute (s.without p.1)) >>= e.rebuild := by
  have hmap : (e.form.map fun c => (c, substitute c)).scoped.mapM (fun p => p.2.2 (s.without p.1)) =
      e.form.scoped.mapM fun p => p.2.substitute (s.without p.1) := by
    rw [Form.scoped_map, Form.mapM_map]
    rfl
  rw [← hmap, substitute, recurse_eq]
  cases hf : e.form <;> simp_all [Form.map]

/-- **Substitution**: it replaces the free variables and nothing else. -/
theorem substitute_reaches (e : Expr) {st : Store} (he : e ∈ st) (s : Substitution) (hs : ∀ p ∈ s, p.2 ∈ st) :
    making.reaches st (e.substitute s) fun st' r => r ∈ st' ∧ Substituted s e r := by
  induction e using inductionOn generalizing st s with
  | node e ih =>
    by_cases hnil : s = []
    · subst hnil
      rw [substitute, recurse_eq]
      exact making.ofPure fun _ hk => ⟨mem_of_le hk he, .done⟩
    by_cases hvar : ∃ x, e.form = .var x
    · obtain ⟨x, hx⟩ := hvar
      rw [substitute_var hx hnil]
      refine making.ofPure fun _ hk => ⟨?_, .var hx⟩
      cases hl : s.lookup x with
      | none => exact mem_of_le hk he
      | some a =>
        obtain ⟨_, _, hs', _⟩ := List.lookup_eq_some_iff.1 hl
        exact mem_of_le hk (hs (x, a) (by simp [hs']))
    · have hvar : ∀ x, e.form ≠ .var x := fun x hx => hvar ⟨x, hx⟩
      rw [substitute_node hvar hnil]
      let R : Store → List Var × Expr → Expr → Prop :=
        fun st' p c => c ∈ st' ∧ Substituted (s.without p.1) p.2 c
      have hR : Lasting R := fun _ _ hk _ _ h => ⟨mem_of_le hk h.1, h.2⟩
      refine making.ofBind (Form.mapM_reaches making hR (k := st) ?_) fun st₁ hst form hform => ?_
      · intro p hp st₁ hst
        have hp' : p.2 ∈ e.form.children := Form.mem_children_of_scoped hp
        exact ih p.2 hp' (mem_of_le hst (child he hp')) _
          fun q hq => mem_of_le hst (hs q (List.mem_of_mem_filter hq))
      have hshape : Form.Rel (fun _ _ => True) e.form form := by
        rw [← Form.map_snd_scoped e.form]
        exact (hform.mono fun _ _ _ => trivial).map_left
      have hparts : ∀ c ∈ form.children, c ∈ st₁ := by
        intro c hc
        obtain ⟨_, _, h⟩ := hform.exists_left hc
        exact h.1
      refine making.ofImp (rebuild_reaches (mem_of_le hst he) hshape hparts) ?_
      exact fun _ _ n ⟨hn, hty, hf⟩ => ⟨hn, .node hvar hty (hform.trans_eq hf) fun _ _ h => h.2⟩

end Expr

/-! ### Inlining -/

/-- `q` is a literal for the argument that `p` pairs with its parameter: a constant with the known value of the argument,
retyped to the parameter. -/
def IsLiteral (facts : Facts) (p q : Var × Expr) : Prop :=
  q.1 = p.1 ∧ ∃ value c, facts.constantValue? p.2 = some value ∧ c.ty = p.2.ty ∧ c.form = .constant value ∧
    Retyped p.1.ty c q.2

/-- `r` is the body of a function literal, with literals in the place of its parameters. -/
def Inlined (facts : Facts) (params : List Var) (body : Expr) (args : List Expr) (r : Expr) : Prop :=
  params.length = args.length ∧ params.Nodup ∧
    ∃ s, List.Forall₂ (IsLiteral facts) (params.zip args) s ∧ Substituted s body r

theorem literals?_reaches (facts : Facts) (ps : List (Var × Expr)) (st : Store) :
    making.reaches st (literals? facts ps) fun st' o =>
      ∀ s ∈ o, List.Forall₂ (IsLiteral facts) ps s ∧ ∀ p ∈ s, p.2 ∈ st' := by
  induction ps generalizing st with
  | nil => exact making.ofPure fun _ _ => by rintro s ⟨⟩; exact ⟨.nil, by simp⟩
  | cons p ps ih =>
    obtain ⟨x, arg⟩ := p
    unfold literals?
    cases hv : facts.constantValue? arg with
    | none => exact making.ofPure fun _ _ => by simp
    | some value =>
      have hlit : attempting.reaches st (do (← Expr.constant value arg.ty).retype x.ty) fun st' l =>
          l ∈ st' ∧ IsLiteral facts (x, arg) (x, l) := by
        refine attempting.ofBind (Fallible.reaches_fresh (Expr.constant_reaches value arg.ty)) ?_
        rintro st₁ _ c ⟨hc, _, hty, hform⟩
        refine attempting.ofImp (Expr.retype_reaches c x.ty hc) ?_
        exact fun _ _ l ⟨hl, hr, _⟩ => ⟨hl, rfl, value, c, hv, hty, hform, hr⟩
      refine making.ofBind (Fallible.reaches_toOption hlit) fun st₁ _ o ho => ?_
      cases o with
      | none => exact making.ofPure fun _ _ => by simp
      | some l =>
        obtain ⟨hl, hlit⟩ := ho l rfl
        refine making.ofBind (ih st₁) fun st₂ hst₂ rest hrest => making.ofPure fun st₃ hst₃ => ?_
        rintro s hs
        obtain ⟨s', hs', rfl⟩ := Option.map_eq_some_iff.1 hs
        obtain ⟨h₁, h₂⟩ := hrest s' hs'
        refine ⟨.cons hlit h₁, ?_⟩
        rintro q (_ | ⟨_, hq⟩)
        · exact mem_of_le (hst₂.trans hst₃) hl
        · exact mem_of_le hst₃ (h₂ q hq)

theorem inline?_reaches (facts : Facts) {params : List Var} {body : Expr} {args : List Expr} (hb : body ∈ st) :
    making.reaches st (inline? facts params body args) fun st' o =>
      ∀ r ∈ o, r ∈ st' ∧ Inlined facts params body args r := by
  unfold inline?
  split
  · next h =>
    refine making.ofBind (literals?_reaches facts _ st) fun st₁ hst₁ o ho => ?_
    cases o with
    | none => exact making.ofPure fun _ _ => by simp
    | some s =>
      obtain ⟨hlit, hmem⟩ := ho s rfl
      dsimp only
      rw [← bind_pure_comp]
      refine making.ofBind (Expr.substitute_reaches body (mem_of_le hst₁ hb) s hmem) ?_
      rintro st₂ _ r ⟨hr, hsub⟩
      refine making.ofPure fun _ hk => ?_
      rintro _ ⟨⟩
      exact ⟨mem_of_le hk hr, h.1, h.2, s, hlit, hsub⟩
  · exact making.ofPure fun _ _ => by simp

/-! ### Whether inlining is possible -/

/-- Whether a constant can be retyped depends on its value and its type only. -/
theorem Expr.retype_constant_isOk {c d : Expr} {value : Value} (hc : c.form = .constant value)
    (hd : d.form = .constant value) (hty : c.ty = d.ty) (ty : Ty) (s s' : Supply .node) :
    (c.retype ty s).isOk = (d.retype ty s').isOk := by
  simp only [retype_eq, hc, hd, hty]
  split
  · rfl
  · split
    · rfl
    · unfold coerce
      rw [hty]
      split
      · rfl
      · split <;> rfl

theorem Expr.constant_run (value : Value) (ty : Ty) (s : Supply .node) :
    (constant value ty s).1.form = .constant value ∧ (constant value ty s).1.ty = ty := by
  unfold constant
  split
  · exact ⟨rfl, rfl⟩
  · unfold integer
    split <;> exact ⟨rfl, rfl⟩
  · exact ⟨rfl, rfl⟩

theorem Fallible.toOption_isSome {α : Type} (x : Fallible α) (s : Supply .node) :
    (x.toOption s).1.isSome = (x s).isOk := by
  unfold toOption
  cases x s <;> rfl

/-- The rules for making nodes, when nothing is said of the nodes. -/
abbrev blindly : Logic (Fresh .node) Moment := State.logic fun _ _ => True

theorem literals?_isSome (facts : Facts) (ps : List (Var × Expr)) :
    ∃ b, blindly.reaches .now (literals? facts ps) fun _ o => o.isSome = b := by
  induction ps with
  | nil => exact ⟨true, blindly.ofPure fun _ _ => rfl⟩
  | cons p ps ih =>
    obtain ⟨x, arg⟩ := p
    obtain ⟨b, hb⟩ := ih
    unfold literals?
    cases facts.constantValue? arg with
    | none => exact ⟨false, blindly.ofPure fun _ _ => rfl⟩
    | some value =>
      let literal : Fallible Expr := do (← Expr.constant value arg.ty).retype x.ty
      have hok : ∀ s s', (literal.toOption s).1.isSome = (literal.toOption s').1.isSome := by
        intro s s'
        rw [Fallible.toOption_isSome, Fallible.toOption_isSome]
        obtain ⟨hf, ht⟩ := Expr.constant_run value arg.ty s
        obtain ⟨hf', ht'⟩ := Expr.constant_run value arg.ty s'
        exact Expr.retype_constant_isOk hf hf' (ht.trans ht'.symm) x.ty _ _
      have hlit : blindly.reaches .now literal.toOption fun _ o => o.isSome = (literal.toOption ⟨0⟩).1.isSome :=
        fun _ _ s _ => ⟨.now, le_rfl, trivial, hok s ⟨0⟩⟩
      refine ⟨(literal.toOption ⟨0⟩).1.isSome && b, blindly.ofBind hlit fun _ _ o ho => ?_⟩
      cases o with
      | none => exact blindly.ofPure fun _ _ => by simp [← ho]
      | some l => exact blindly.ofBind hb fun _ _ rest hrest => blindly.ofPure fun _ _ => by simp [← ho, hrest]

/-- Whether there is something to inline does not depend on which nodes exist. -/
theorem inline?_isSome (facts : Facts) (params : List Var) (body : Expr) (args : List Expr) (s s' : Supply .node) :
    (inline? facts params body args s).1.isSome = (inline? facts params body args s').1.isSome := by
  have h : ∃ b, blindly.reaches .now (inline? facts params body args) fun _ o => o.isSome = b := by
    unfold inline?
    split
    · obtain ⟨b, hb⟩ := literals?_isSome facts (params.zip args)
      refine ⟨b, blindly.ofBind hb fun _ _ o ho => ?_⟩
      cases o with
      | none => exact blindly.ofPure fun _ _ => ho
      | some substitution => exact fun _ _ t _ => ⟨.now, le_rfl, trivial, ho⟩
    · exact ⟨false, blindly.ofPure fun _ _ => rfl⟩
  obtain ⟨b, hb⟩ := h
  obtain ⟨_, _, _, h⟩ := hb .now le_rfl s trivial
  obtain ⟨_, _, _, h'⟩ := hb .now le_rfl s' trivial
  rw [h, h']

end TypedTree
