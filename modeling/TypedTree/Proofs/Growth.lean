import TypedTree.Proofs.Descent
import TypedTree.Proofs.WellTyped

/-!
# Trees do not grow

What takes the place of a node is mostly a part of it. There are three ways in which a tree could gain nodes all the same. A
throw of a constant has two nodes, and so it may only take the place of a node with sub-expressions: every exception that is
predicted comes from one, and a member that is run without operands must not raise any. Retyping may put a conversion or a
block around a branch, and does not where a branch has the very type of its node (`Expr.HasExactType`). And a literal that is
substituted for a parameter may need a conversion at each place where the parameter stands, but needs none where arguments
have the types of their parameters.

It is not enough to ask this of arguments of function literals (`Expr.SuitsLiteral`): the callee may become one when it is
visited, and then the tree may grow (`settledCallee_grows`). When the arguments have the types that the type of the callee
says, whatever the callee is (`Expr.SuitsCallee`), this is kept by visits, and no tree grows (`nodeCount_never_grows`).
-/

namespace TypedTree

/-! ### Exact types -/

namespace Expr

/-- The node has its own type, and what may give its value has the same type. -/
structure HasExactType (e : Expr) : Prop where
  own : e.HasOwnType
  branch {b : Expr} : e.Branch b → b.ty = e.ty

/-- The arguments have the types of their parameters. -/
def Suits (params : List Ty) (args : List Expr) : Prop := ∀ p ∈ params.zip (args.map (·.ty)), p.2 = p.1

/-- What the node passes to a function literal has the types of its parameters. -/
def SuitsLiteral (e : Expr) : Prop :=
  ∀ callee args params body, e.form = .invoke callee args → callee.form = .lambda params body →
    Suits (params.map (·.ty)) args

/-- What the node passes to a delegate has the types that the type of the delegate says. -/
def SuitsCallee (e : Expr) : Prop :=
  ∀ callee args params result, e.form = .invoke callee args → callee.ty = .function params result → Suits params args

/-- The node has an exact type, and so has what it passes to a delegate. -/
def IsExact (e : Expr) : Prop := e.HasExactType ∧ e.SuitsCallee

end Expr

section

variable {e n r c : Expr}

theorem Expr.Branch.exists_left {R : Expr → Expr → Prop} {b : Expr} (h : n.Branch b) (hrel : Form.Rel R e.form n.form) :
    ∃ a, e.Branch a ∧ R a b := by
  generalize he : e.form = f at hrel
  cases h with
  | conditional hf hb =>
    rw [hf] at hrel
    cases hrel with
    | conditional _ h h' =>
      rcases List.mem_pair.1 hb with rfl | rfl
      · exact ⟨_, .conditional he (by simp), h⟩
      · exact ⟨_, .conditional he (by simp), h'⟩
  | logical hf hb =>
    rw [hf] at hrel
    cases hrel with
    | logical h h' =>
      rcases List.mem_pair.1 hb with rfl | rfl
      · exact ⟨_, .logical he (by simp), h⟩
      · exact ⟨_, .logical he (by simp), h'⟩
  | case hf hc =>
    rw [hf] at hrel
    cases hrel with
    | switch _ hs _ =>
      obtain ⟨a, ha, h⟩ := exists_left_of_forall₂ hs hc
      exact ⟨_, .case he ha, h.body⟩
  | fallback hf =>
    rw [hf] at hrel
    cases hrel with
    | switch _ _ h =>
      cases h with
      | some h => exact ⟨_, .fallback he, h⟩
  | body hf =>
    rw [hf] at hrel
    cases hrel with
    | tryCatch h => exact ⟨_, .body he, h⟩

theorem Expr.HasExactType.of_rel (he : e.HasExactType) (hty : n.ty = e.ty)
    (hrel : Form.Rel (fun a b => b.ty = a.ty) e.form n.form) : n.HasExactType where
  own := he.own.of_rel hty hrel
  branch hb := by
    obtain ⟨a, ha, hab⟩ := hb.exists_left hrel
    rw [hab, he.branch ha, hty]

theorem Expr.SuitsCallee.of_rel (he : e.SuitsCallee) (hrel : Form.Rel (fun a b => b.ty = a.ty) e.form n.form) :
    n.SuitsCallee := by
  intro callee args params result hf hty
  rw [hf] at hrel
  generalize hform : e.form = f at hrel
  cases hrel with
  | invoke h hs =>
    have htypes : List.Forall₂ (· = ·) _ (args.map (·.ty)) := forall₂_map (hs.imp fun _ _ h => h.symm)
    rw [List.forall₂_eq_eq_eq] at htypes
    have hsuits := he _ _ params result hform (h.symm.trans hty)
    rwa [Expr.Suits, htypes] at hsuits

theorem typeRule_exact : TypeRule Expr.IsExact where
  basic h := Expr.HasLooseType.basic (.inl h.1.own)
  of_rel he hty hrel := ⟨he.1.of_rel hty hrel, he.2.of_rel hrel⟩

/-- Exact types ask for more than own types: of choices, handlers and invocations. -/
def Form.isDemanding {α : Type} : Form α → Bool
  | .conditional .. | .logical .. | .switch .. | .tryCatch .. | .invoke .. => true
  | _ => false

theorem Expr.Branch.isDemanding {b : Expr} (h : e.Branch b) : e.form.isDemanding = true := by
  cases h with
  | conditional hf | logical hf | case hf | fallback hf | body hf => rw [hf]; rfl

theorem exact_of_own (hform : r.form.isDemanding = false) (hown : r.HasOwnType)
    (hc : ∀ c ∈ r.form.children, c.All Expr.IsExact) : r.All Expr.IsExact := by
  refine .node ⟨⟨hown, fun hb => ?_⟩, fun callee args _ _ hf => ?_⟩ hc
  · cases hform.symm.trans hb.isDemanding
  · rw [hf] at hform
    cases hform

theorem exact_of_constant {value : Value} (hf : r.form = .constant value) : r.All Expr.IsExact :=
  exact_of_own (by rw [hf]; rfl) (by rw [Expr.HasOwnType, hf]; trivial) (by simp [hf, Form.children])

theorem exact_of_throw {exception : Option Expr} (hf : r.form = .throw exception)
    (hc : ∀ c ∈ exception, c.All Expr.IsExact) : r.All Expr.IsExact := by
  refine exact_of_own (by rw [hf]; rfl) (by rw [Expr.HasOwnType, hf]; trivial) ?_
  rw [hf]
  simpa [Form.children] using hc

theorem exact_of_leaf (h : r.IsLeaf) : r.All Expr.IsExact := by
  cases h with
  | constant hf => exact exact_of_constant hf
  | defaultOf hf => exact exact_of_own (by rw [hf]; rfl) (by rw [Expr.HasOwnType, hf]; trivial) (by simp [hf, Form.children])
  | throw hf hc => exact exact_of_throw hf (by simpa using exact_of_constant hc)

theorem exact_of_conditional {test a b : Expr} (hf : r.form = .conditional test a b) (htest : test.ty = .bool)
    (hbranches : a.ty = r.ty ∧ b.ty = r.ty) (hc : ∀ c ∈ r.form.children, c.All Expr.IsExact) : r.All Expr.IsExact := by
  have hown : r.HasOwnType := (Expr.hasOwnType_conditional hf).2 ⟨htest, .inr hbranches⟩
  refine .node ⟨⟨hown, fun hb => ?_⟩, by simp [Expr.SuitsCallee, hf]⟩ hc
  cases hb with
  | conditional hf' hb =>
    cases hf.symm.trans hf'
    rcases List.mem_pair.1 hb with rfl | rfl
    · exact hbranches.1
    · exact hbranches.2
  | logical hf' | case hf' | fallback hf' | body hf' => cases hf.symm.trans hf'

theorem exact_of_logical {op : Connective} {left right : Expr} (hf : r.form = .logical op left right) (hty : r.ty = .bool)
    (hoperands : left.ty = .bool ∧ right.ty = .bool) (hc : ∀ c ∈ r.form.children, c.All Expr.IsExact) :
    r.All Expr.IsExact := by
  have hown : r.HasOwnType := by rw [Expr.HasOwnType, hf]; exact ⟨hty, hoperands⟩
  refine .node ⟨⟨hown, fun hb => ?_⟩, by simp [Expr.SuitsCallee, hf]⟩ hc
  cases hb with
  | logical hf' hb =>
    cases hf.symm.trans hf'
    rcases List.mem_pair.1 hb with rfl | rfl
    · exact hoperands.1.trans hty.symm
    · exact hoperands.2.trans hty.symm
  | conditional hf' | case hf' | fallback hf' | body hf' => cases hf.symm.trans hf'

theorem exact_of_tryCatch {body : Expr} {clauses : List (Clause Expr)} {cleanup onFault : Option Expr}
    (hf : r.form = .tryCatch body clauses cleanup onFault) (hty : body.ty = r.ty)
    (hc : ∀ c ∈ r.form.children, c.All Expr.IsExact) : r.All Expr.IsExact := by
  have hown : r.HasOwnType := by rw [Expr.HasOwnType, hf]; exact hty.symm
  refine .node ⟨⟨hown, fun hb => ?_⟩, by simp [Expr.SuitsCallee, hf]⟩ hc
  cases hb with
  | body hf' =>
    cases hf.symm.trans hf'
    exact hty
  | conditional hf' | logical hf' | case hf' | fallback hf' => cases hf.symm.trans hf'

/-- A throw may have any type. -/
theorem Retyped.exact_of_throw {ty : Ty} {exception : Option Expr} (h : Retyped ty e r) (hf : e.form = .throw exception)
    (he : e.All Expr.IsExact) : r.All Expr.IsExact := by
  refine TypedTree.exact_of_throw (h.throw_form hf) fun c hc => he.child ?_
  rw [hf]
  simpa [Form.children] using hc

end

/-! ### Exact types are kept -/

namespace Optimizer

variable {σ κ : Type} {o : Optimizer σ κ} {cx : Context} {e n r : Expr}
variable (hraise : ∀ {t}, o.facts.alwaysThrows t = true → ∃ exception, t.form = .throw exception)

/-- A literal for an argument of the type of its parameter is a constant. -/
theorem constant_of_suits {params : List Var} {args : List Expr} (h : Expr.Suits (params.map (·.ty)) args)
    {p q : Var × Expr} (hp : p ∈ params.zip args) (hq : IsLiteral o.facts p q) : ∃ value, q.2.form = .constant value := by
  obtain ⟨_, value, c, _, hcty, hc, hretyped⟩ := hq
  have hty : p.2.ty = p.1.ty := by
    refine h (p.1.ty, p.2.ty) ?_
    rw [List.zip_map]
    exact List.mem_map_of_mem hp
  exact ⟨value, by rw [hretyped.eq_of_ty (hcty.trans hty), hc]⟩

/-- The callee of an exact invocation of a function literal is passed what its parameters ask for. -/
theorem suits_of_exact (hn : n.All Expr.IsExact) {callee body : Expr} {params : List Var} {args : List Expr}
    (hform : n.form = .invoke callee args) (hcallee : callee.form = .lambda params body) :
    Expr.Suits (params.map (·.ty)) args := by
  have hc : callee.All Expr.IsExact := hn.child (by rw [hform]; exact List.mem_cons_self)
  have hty := hc.here.1.own
  rw [Expr.HasOwnType, hcallee] at hty
  exact hn.here.2 callee args _ _ hform hty

theorem Inlines.exact {reduced : Expr} (h : o.Inlines n reduced) (hn : n.All Expr.IsExact) : reduced.All Expr.IsExact := by
  obtain ⟨callee, params, body, args, _, b, hform, hcallee, _, hinlined, hr⟩ := h
  have hliteral : ∀ p ∈ params.zip args, ∀ q, IsLiteral o.facts p q → q.2.All Expr.IsExact := by
    intro p hp q hq
    obtain ⟨value, hf⟩ := constant_of_suits (suits_of_exact hn hform hcallee) hp hq
    exact exact_of_constant hf
  obtain ⟨hty, hb⟩ := hinlined.typed typeRule_exact hn hform hcallee hliteral
  rw [hr.eq_of_ty hty]
  exact hb

include hraise

/-- **One step** keeps exact types. -/
theorem Step.exact (h : o.Step n cx r) (hn : n.All Expr.IsExact) : r.All Expr.IsExact := by
  cases h with
  | kept => exact hn
  | threw ht hr =>
    obtain ⟨exception, hf⟩ := hraise ht.throws
    exact hr.exact_of_throw hf (ht.all fun _ => hn.child)
  | @threwAfter pre post t t' r hops hthrows _ hr _ hform =>
    have hmem : ∀ a ∈ pre ++ t :: post, a.All Expr.IsExact :=
      fun a ha => hn.child (Form.mem_children_of_operands (hops ▸ ha))
    obtain ⟨exception, hf⟩ := hraise hthrows
    refine exact_of_own (by rw [hform]; rfl) (by rw [Expr.HasOwnType, hform]; trivial) ?_
    rw [hform]
    simp only [Form.children, List.mem_append, List.mem_filter, List.mem_singleton]
    rintro c (⟨hc, _⟩ | rfl)
    · exact hmem c (by simp [hc])
    · exact hr.exact_of_throw hf (hmem t (by simp))
  | called _ _ _ _ ha => exact exact_of_leaf ha.isLeaf
  | folded _ hc => exact exact_of_leaf hc.isLeaf
  | decided => exact exact_of_constant rfl
  | branch hb hr =>
    rw [hr.eq_of_ty (hn.here.1.branch hb.branch)]
    exact hn.child hb.mem
  | defaulted _ _ _ _ hform => exact exact_of_leaf (.defaultOf hform)
  | @flattened test whenTrue whenFalse innerTest innerTrue innerFalse both r hform htrue _ _ _ hty _ _ hbty hboth hrty hr =>
    have houter : ∀ c ∈ [test, whenTrue, whenFalse], c.All Expr.IsExact := fun c hc => hn.child (by rw [hform]; exact hc)
    have hwhenTrue : whenTrue.All Expr.IsExact := houter whenTrue (by simp)
    have hinner : ∀ c ∈ [innerTest, innerTrue, innerFalse], c.All Expr.IsExact :=
      fun c hc => hwhenTrue.child (by rw [htrue]; exact hc)
    have htest := ((Expr.hasOwnType_conditional hform).1 hn.here.1.own).1
    have hinnerTest := ((Expr.hasOwnType_conditional htrue).1 hwhenTrue.here.1.own).1
    have hb : both.All Expr.IsExact := by
      refine exact_of_logical hboth hbty ⟨htest, hinnerTest⟩ ?_
      rw [hboth]
      simpa [Form.children] using ⟨houter test (by simp), hinner innerTest (by simp)⟩
    have hinnerTrue : innerTrue.ty = whenTrue.ty := hwhenTrue.here.1.branch (.conditional htrue (by simp))
    have hwhenFalse : whenFalse.ty = n.ty := hn.here.1.branch (.conditional hform (by simp))
    refine exact_of_conditional hr hbty ⟨by rw [hinnerTrue, hty, hrty], by rw [hwhenFalse, hrty]⟩ ?_
    rw [hr]
    simpa [Form.children] using ⟨hb, hinner innerTrue (by simp), houter whenFalse (by simp)⟩
  | @simplified body r clauses kept cleanup onFault hform hsimplified _ hty hr =>
    have hbody : body.ty = n.ty := hn.here.1.branch (.body hform)
    refine exact_of_tryCatch hr (hbody.trans hty.symm) fun c hc => hn.child ?_
    rw [hr] at hc
    rw [hform]
    exact mem_children_of_simplified hsimplified hc

theorem preserves_exact : o.Preserves Expr.IsExact where
  rule := typeRule_exact
  step h hn := h.exact hraise hn
  inlines h hn := h.exact hn

end Optimizer

/-! ### Counting nodes -/

section

variable {e n r c : Expr}

theorem Expr.nodeCount_of_form {form : Form Expr} (h : e.form = form) :
    e.nodeCount = 1 + (form.children.map nodeCount).sum := by
  rw [nodeCount_eq, Form.sum_map, h]

theorem Expr.nodeCount_pos (e : Expr) : 1 ≤ e.nodeCount := by
  rw [nodeCount_eq]
  omega

/-- There is room for a throw of a constant in the place of a node with sub-expressions. -/
theorem Expr.two_le_nodeCount (h : e.form.children ≠ []) : 2 ≤ e.nodeCount := by
  obtain ⟨c, hc⟩ := List.exists_mem_of_ne_nil _ h
  have hlt := nodeCount_child hc
  have hpos := c.nodeCount_pos
  omega

theorem nodeCount_le_of_rel {R : Expr → Expr → Prop} (hrel : Form.Rel R e.form n.form)
    (hR : ∀ a ∈ e.form.children, ∀ b, R a b → b.nodeCount ≤ a.nodeCount) : n.nodeCount ≤ e.nodeCount := by
  have hchildren : List.Forall₂ (· ≤ ·) (n.form.children.map Expr.nodeCount) (e.form.children.map Expr.nodeCount) := by
    refine forall₂_map ?_
    exact (hrel.imp hR).children.flip
  rw [Expr.nodeCount_of_form (e := n) rfl, Expr.nodeCount_of_form (e := e) rfl]
  exact Nat.add_le_add_left hchildren.sum_le_sum _

/-- The substitution of single nodes for variables leaves the size as it is. -/
theorem Substituted.nodeCount_le {s : Substitution} (h : Substituted s e r) (hs : ∀ p ∈ s, p.2.nodeCount = 1) :
    r.nodeCount ≤ e.nodeCount := by
  induction h with
  | done => exact le_rfl
  | @var s e x hf =>
    cases hl : s.lookup x with
    | none => exact le_rfl
    | some a =>
      obtain ⟨_, _, hs', _⟩ := List.lookup_eq_some_iff.1 hl
      have ha : a.nodeCount = 1 := hs (x, a) (by simp [hs'])
      exact ha ▸ e.nodeCount_pos
  | node _ _ hrel _ ih =>
    refine nodeCount_le_of_rel (Form.rel_of_scoped hrel) ?_
    rintro a _ b ⟨bound, hR⟩
    exact ih _ _ hR fun p hp => hs p (List.mem_of_mem_filter hp)

theorem Expr.nodeCount_of_constant {value : Value} (h : r.form = .constant value) : r.nodeCount = 1 := by
  rw [nodeCount_of_form h]
  rfl

theorem Expr.nodeCount_of_default (h : r.form = .defaultOf) : r.nodeCount = 1 := by
  rw [nodeCount_of_form h]
  rfl

theorem Expr.Raises.nodeCount_eq {x : Exception} (h : r.Raises x) : r.nodeCount = 2 := by
  obtain ⟨c, hr, hc, _⟩ := h
  simp [nodeCount_of_form hr, Form.children, nodeCount_of_constant hc]

end

namespace Optimizer

variable {σ κ : Type} {o : Optimizer σ κ} {cx : Context} {e n r : Expr}

/-- What takes the place of a node after a member was run is no larger, unless the member raised an exception without
having been given an operand. -/
theorem answer_nodeCount_le (hsafe : ∀ x, ¬ o.evaluators.Yields [] (.error x)) {operands : List Value}
    {outcome : Except Exception Value} (hyields : o.evaluators.Yields operands outcome)
    (hoperands : n.form.children = [] → operands = []) (ha : n.Answers outcome r) : r.nodeCount ≤ n.nodeCount := by
  have hpos := n.nodeCount_pos
  obtain ⟨_, ha⟩ := ha
  cases outcome with
  | ok value =>
    dsimp only at ha
    split at ha
    · exact Expr.nodeCount_of_default ha ▸ hpos
    · exact Expr.nodeCount_of_constant ha.1 ▸ hpos
  | error x =>
    rw [ha.nodeCount_eq]
    refine Expr.two_le_nodeCount fun hnil => hsafe x ?_
    rw [hoperands hnil] at hyields
    exact hyields

theorem Computes.nodeCount_le (hsafe : ∀ x, ¬ o.evaluators.Yields [] (.error x)) (h : o.Computes n r) :
    r.nodeCount ≤ n.nodeCount := by
  cases h with
  | ran hyields hsupplied ha =>
    refine answer_nodeCount_le hsafe hyields (fun hnil => List.eq_nil_iff_forall_not_mem.2 fun v hv => ?_) ha
    obtain ⟨hc, _⟩ | ⟨hc, _⟩ := hsupplied v hv
    all_goals
      rw [hnil] at hc
      cases hc
  | found _ hf => exact Expr.nodeCount_of_constant hf ▸ n.nodeCount_pos
  | raised hc _ hr => exact hr.nodeCount_eq ▸ Expr.two_le_nodeCount hc

theorem Throws.nodeCount_lt {t : Expr} (h : o.Throws n t) : t.nodeCount < n.nodeCount := by
  obtain ht | ⟨callee, args, params, hf, hc, _⟩ := h.mem
  · exact Expr.nodeCount_child ht
  · calc t.nodeCount
      _ < callee.nodeCount := Expr.nodeCount_child (by rw [hc]; exact List.mem_cons_self)
      _ < n.nodeCount := Expr.nodeCount_child (by rw [hf]; exact List.mem_cons_self)

theorem Inlines.nodeCount_lt {reduced : Expr} (h : o.Inlines n reduced) (hn : n.All Expr.IsExact) :
    reduced.nodeCount < n.nodeCount := by
  obtain ⟨callee, params, body, args, _, b, hform, hcallee, _, hinlined, hr⟩ := h
  have hsuits := suits_of_exact hn hform hcallee
  have hty : b.ty = n.ty := by
    refine (hinlined.typed typeRule_exact hn hform hcallee fun p hp q hq => ?_).1
    obtain ⟨value, hf⟩ := constant_of_suits hsuits hp hq
    exact exact_of_constant hf
  obtain ⟨_, _, s, hlit, hsub⟩ := hinlined
  have hs : ∀ q ∈ s, q.2.nodeCount = 1 := by
    intro q hq
    obtain ⟨p, hp, hlit⟩ := exists_left_of_forall₂ hlit hq
    obtain ⟨value, hf⟩ := constant_of_suits hsuits hp hlit
    exact Expr.nodeCount_of_constant hf
  calc reduced.nodeCount
    _ = b.nodeCount := by rw [hr.eq_of_ty hty]
    _ ≤ body.nodeCount := hsub.nodeCount_le hs
    _ < callee.nodeCount := Expr.nodeCount_child (by rw [hcallee]; exact List.mem_cons_self)
    _ < n.nodeCount := Expr.nodeCount_child (by rw [hform]; exact List.mem_cons_self)

variable (hraise : ∀ {t}, o.facts.alwaysThrows t = true → ∃ exception, t.form = .throw exception)
variable (hsafe : ∀ x, ¬ o.evaluators.Yields [] (.error x))

include hraise

theorem nodeCount_of_retyped_throw {ty : Ty} {t : Expr} (ht : o.facts.alwaysThrows t = true) (hr : Retyped ty t r) :
    r.nodeCount = t.nodeCount := by
  obtain ⟨exception, hf⟩ := hraise ht
  rw [Expr.nodeCount_of_form (hr.throw_form hf), Expr.nodeCount_of_form hf]

/-- A node with visited sub-expressions is exact, and no larger when they are no larger. -/
theorem rebuilt_exact {R : Expr × Context → Expr → Prop} (he : e.All Expr.IsExact)
    (hvisits : ∀ p c, R p c → o.Visits p.2 p.1 c) (hrel : Form.Rel R (o.facts.inContext cx e.form) n.form)
    (hty : n.ty = e.ty) (hR : ∀ p c, R p c → p.1.All Expr.IsExact → c.nodeCount ≤ p.1.nodeCount) :
    n.All Expr.IsExact ∧ n.nodeCount ≤ e.nodeCount := by
  have hkept : o.Preserves Expr.IsExact := preserves_exact hraise
  refine ⟨hkept.rebuilt he hvisits hrel hty fun p c hc => hkept.visits (hvisits p c hc), ?_⟩
  refine nodeCount_le_of_rel (o.facts.rel_of_inContext hrel) ?_
  rintro a ha b ⟨cx, hb⟩
  exact hR _ _ hb (he.child ha)

include hsafe

/-- **One step** adds no node. -/
theorem Step.nodeCount_le (h : o.Step n cx r) (hn : n.All Expr.IsExact) : r.nodeCount ≤ n.nodeCount := by
  have hpos := n.nodeCount_pos
  cases h with
  | kept => exact le_rfl
  | threw ht hr =>
    rw [nodeCount_of_retyped_throw hraise ht.throws hr]
    exact ht.nodeCount_lt.le
  | threwAfter hops hthrows _ hr _ hform =>
    have hkept := kept_sum_le hops (!o.facts.isPure ·) Expr.nodeCount
    have hcount := Expr.nodeCount_of_form (e := n) rfl
    have ht := nodeCount_of_retyped_throw hraise hthrows hr
    simp only [Expr.nodeCount_of_form hform, Form.children, List.map_append, List.map_cons, List.map_nil, List.sum_append,
      List.sum_cons, List.sum_nil]
    omega
  | @called m args values callable outcome r hform hknown hcompile hinvoke ha =>
    obtain ⟨w, hcompile⟩ := hcompile
    obtain ⟨w', hinvoke⟩ := hinvoke
    refine answer_nodeCount_le hsafe ⟨m, w, callable, w', hcompile, hinvoke⟩ (fun hnil => ?_) ha
    have hargs : args = [] := by simpa [hform, Form.children] using hnil
    rw [hargs] at hknown
    exact List.forall₂_nil_left_iff.1 hknown
  | folded _ hc => exact hc.nodeCount_le hsafe
  | decided b => exact (Expr.nodeCount_of_constant (r := .boolean b) rfl) ▸ hpos
  | branch hb hr =>
    rw [hr.eq_of_ty (hn.here.1.branch hb.branch)]
    exact (Expr.nodeCount_child hb.mem).le
  | defaulted _ _ _ _ hform => exact Expr.nodeCount_of_default hform ▸ hpos
  | flattened hform htrue _ _ _ _ _ _ _ hboth _ hr =>
    simp only [Expr.nodeCount_of_form hr, Expr.nodeCount_of_form hboth, Expr.nodeCount_of_form hform,
      Expr.nodeCount_of_form htrue, Form.children, List.map_cons, List.map_nil, List.sum_cons, List.sum_nil]
    omega
  | simplified hform hsimplified _ _ hr =>
    have hclauses := simplified_sum_le hsimplified Expr.nodeCount
    simp only [Expr.nodeCount_of_form hr, Expr.nodeCount_of_form hform, Form.children, List.map_cons, List.map_append,
      List.sum_cons, List.sum_append]
    omega

/-- **Visits** add no node. -/
theorem Visits.nodeCount_le (h : o.Visits cx e r) (he : e.All Expr.IsExact) : r.nodeCount ≤ e.nodeCount := by
  induction h with
  | skipped => exact le_rfl
  | settled hvisits hrel hty _ hstep ih =>
    obtain ⟨hn, hle⟩ := rebuilt_exact hraise he hvisits hrel hty ih
    exact (hstep.nodeCount_le hraise hsafe hn).trans hle
  | inlined hvisits hrel hty hin _ ih ihr =>
    obtain ⟨hn, hle⟩ := rebuilt_exact hraise he hvisits hrel hty ih
    exact (ihr (hin.exact hn)).trans ((hin.nodeCount_lt hn).le.trans hle)

end Optimizer

/-- **Trees do not grow**: when every node has an exact type, what is passed to delegates included, and no member that can
be compiled raises an exception without having been given an operand, then neither a visit nor a whole run gives a tree with
more nodes than it was given; whatever the context, the settings and the catalog, and with hooks that replace nothing. -/
theorem nodeCount_never_grows {σ κ : Type} (catalog : Catalog) (evaluators : Evaluators σ κ) (hooks : Hooks σ)
    (settings : Settings) (hooks_transparent : hooks.Transparent)
    (safe : ∀ raised, ¬ evaluators.Yields [] (.error raised)) (e : Expr) (cx : Context) (s : Progress σ)
    (identified : e.Identified s.nodes) (exact : e.All fun a => a.HasExactType ∧ a.SuitsCallee) :
    let o : Optimizer σ κ := ⟨catalog.facts, evaluators, hooks, settings⟩
    (∀ r s', o.visit e cx s = .ok r s' → r.nodeCount ≤ e.nodeCount) ∧
      ∀ r s', o.optimize e s = .ok r s' → r.nodeCount ≤ e.nodeCount := by
  intro o
  constructor
  · intro r s' hrun
    exact (Optimizer.visits_of_visit hooks_transparent identified hrun).nodeCount_le Catalog.throw_of_alwaysThrows safe exact
  · intro r s' hrun
    obtain ⟨rfl | h, _⟩ := Optimizer.visits_of_optimize hooks_transparent identified hrun
    · exact le_rfl
    · exact h.nodeCount_le Catalog.throw_of_alwaysThrows safe exact

/-! ### A callee that becomes a function literal -/

open Store

/-- An invocation of a function literal inside handlers without clauses. The parameter is a text and is mentioned five times;
the argument is a constant. -/
def settledCallee (value : Value) (ty : Ty) : Fresh .node Expr := do
  let x : Var := ⟨0, "x", .string⟩
  let mention ← Expr.var x
  let body ← Expr.block [] (List.replicate 5 mention) .string
  let callee ← Expr.tryCatch (← Expr.lambda [x] body) [] none none
  Expr.invoke callee [← Expr.make ty (.constant value)]

theorem settledCallee_reaches (value : Value) (ty : Ty) :
    making.reaches initial (settledCallee value ty) fun st e => e ∈ st := by
  refine making.ofBind (Expr.make_mem rfl (List.forall_mem_nil _)) fun st₁ _ x hx => ?_
  refine making.ofBind (Expr.make_mem rfl (by simpa [Form.children] using hx)) fun st₂ _ body hbody => ?_
  refine making.ofBind (Expr.make_mem rfl (by simpa [Form.children] using hbody)) fun st₃ _ literal hliteral => ?_
  refine making.ofBind (Expr.make_mem rfl (by simpa [Form.children] using hliteral)) fun st₄ _ callee hcallee => ?_
  refine making.ofBind (Expr.make_mem rfl (List.forall_mem_nil _)) fun st₅ hst₅ arg harg => ?_
  refine Expr.make_mem rfl ?_
  simpa [Form.children] using ⟨mem_of_le hst₅ hcallee, harg⟩

/-- What is asked of exact types and of invocations is met by the tree when it is met by the invocation. -/
theorem settledCallee_all {H : Expr → Prop}
    (hH : ∀ {a : Expr}, a.HasExactType → (∀ callee args, a.form ≠ .invoke callee args) → H a) (value : Value) (ty : Ty)
    (hcall : (settledCallee value ty ⟨0⟩).1.HasExactType → H (settledCallee value ty ⟨0⟩).1) :
    (settledCallee value ty ⟨0⟩).1.All H := by
  have hplain : ∀ {a : Expr}, a.form.isDemanding = false → a.HasOwnType → (∀ c ∈ a.form.children, c.All H) → a.All H := by
    intro a hform hown hc
    refine .node (hH ⟨hown, fun hb => ?_⟩ fun _ _ hf => ?_) hc
    · cases hform.symm.trans hb.isDemanding
    · cases hf ▸ hform
  refine .node (hcall ⟨rfl, ?_⟩) (List.forall_mem_cons.2 ⟨.node (hH ⟨rfl, ?_⟩ nofun) ?_, ?_⟩)
  · intro b hb
    cases hb with
    | conditional hf | logical hf | case hf | fallback hf | body hf => cases hf
  · intro b hb
    cases hb with
    | body hf => cases hf; rfl
    | conditional hf | logical hf | case hf | fallback hf => cases hf
  · refine List.forall_mem_singleton.2 (hplain rfl rfl (List.forall_mem_singleton.2 (hplain rfl trivial fun c hc => ?_)))
    rw [List.eq_of_mem_replicate hc]
    exact hplain rfl rfl nofun
  · exact List.forall_mem_singleton.2 (hplain rfl trivial nofun)

/-- To look at the arguments of function literals alone does not keep trees from growing: here, the callee is no function
literal before it is visited, and the argument has to be converted wherever the parameter stands. -/
theorem settledCallee_grows :
    let e := (settledCallee (.int 5) .object ⟨0⟩).1
    let s : Progress Console := ⟨(settledCallee (.int 5) .object ⟨0⟩).2, ⟨⟨0⟩, .empty⟩, .empty⟩
    e.Identified s.nodes ∧ (e.All fun a => a.HasExactType ∧ a.SuitsLiteral) ∧
      (∀ raised, ¬ Optimizer.bare.evaluators.Yields [] (.error raised)) ∧
      ∃ r s', Optimizer.bare.optimize e s = .ok r s' ∧ e.nodeCount < r.nodeCount := by
  intro e s
  refine ⟨Expr.identified_of_reaches (settledCallee_reaches _ _) _, settledCallee_all ?_ _ _ fun h => ⟨h, ?_⟩,
    fun _ => Optimizer.bare_runs_nothing, ?_⟩
  · exact fun h hform => ⟨h, fun _ _ _ _ hf => absurd hf (hform _ _)⟩
  · rintro callee args params body ⟨⟩ ⟨⟩
  · have hok : Run.passes (fun r _ => decide (e.nodeCount < r.nodeCount)) (Optimizer.bare.optimize e s) = true := by
      decide +kernel
    obtain ⟨r, s', hrun, htest⟩ := Run.exists_of_passes hok
    exact ⟨r, s', hrun, of_decide_eq_true htest⟩

theorem nodeCount_never_grows_settledCallee :
    let e := (settledCallee (.string "a") .string ⟨0⟩).1
    let s : Progress Console := ⟨(settledCallee (.string "a") .string ⟨0⟩).2, ⟨⟨0⟩, .empty⟩, .empty⟩
    e.Identified s.nodes ∧ (e.All fun a => a.HasExactType ∧ a.SuitsCallee) ∧
      ∃ r s', Optimizer.bare.optimize e s = .ok r s' ∧ s'.tally.total = 2 ∧ r.nodeCount ≤ e.nodeCount := by
  intro e s
  have identified : e.Identified s.nodes := Expr.identified_of_reaches (settledCallee_reaches _ _) _
  have exact : e.All fun a => a.HasExactType ∧ a.SuitsCallee := by
    refine settledCallee_all (fun h hform => ⟨h, fun _ _ _ _ hf => absurd hf (hform _ _)⟩) _ _ fun h => ⟨h, ?_⟩
    rintro callee args params result ⟨⟩ ⟨⟩
    exact List.forall_mem_singleton.2 rfl
  have hok : Run.passes (fun _ s' => s'.tally.total == 2) (Optimizer.bare.optimize e s) = true := by decide +kernel
  obtain ⟨r, s', hrun, htest⟩ := Run.exists_of_passes hok
  refine ⟨identified, exact, r, s', hrun, by simpa using htest, ?_⟩
  exact (nodeCount_never_grows .empty Registry.empty.natives .none .standard Hooks.none_transparent
    (fun _ => Optimizer.bare_runs_nothing) e .plain s identified exact).2 r s' hrun

end TypedTree
