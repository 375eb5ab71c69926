import TypedTree.Proofs.Typing

/-!
# Well-typed trees

A tree is well typed when each of its nodes has the static type that its parts determine, or one that they allow. Forms
that are made with a type of their own, such as constants, conversions and throws, may have any. The two kinds of choice,
conditionals and switches, give what a branch gives or nothing (`void`).

What a visit makes of the sub-expressions of a node keeps their types, so that the node stays well typed
(`Expr.HasOwnType.of_rel`), and inlining in a well-typed tree makes a well-typed tree without having to retype it
(`Optimizer.Inlines.wellTyped`).

A tree may also be typed more loosely (`Expr.LooselyTyped`): handlers may discard the value of their body. What is said above
holds for both ways of typing a tree, and is proved for all conditions on nodes that ask for the types on which substitution
depends (`TypeRule`, `Expr.HasBasicType`). Loosely typed trees are what visits make of loosely typed trees
(`Optimizer.Visits.looselyTyped`).
-/

namespace TypedTree

namespace Expr

/-- The node has the static type that its parts determine, or one that they allow. -/
def HasOwnType (e : Expr) : Prop :=
  match e.form with
  | .var x => e.ty = x.ty
  | .call _ m _ | .access _ m | .new (some m) _ => e.ty = m.ty
  | .new none args => args = []
  | .newArray element .items _ => e.ty = .array element 1
  | .newArray element .bounds bounds => e.ty = .array element bounds.length
  | .index receiver indexer _ _ => e.ty = elementType receiver indexer
  | .invoke callee _ => e.ty = resultType callee
  | .lambda params body => e.ty = .function (params.map (·.ty)) body.ty
  | .conditional test whenTrue whenFalse =>
    test.ty = .bool ∧ (e.ty = .void ∨ whenTrue.ty = e.ty ∧ whenFalse.ty = e.ty)
  | .logical _ left right => e.ty = .bool ∧ left.ty = .bool ∧ right.ty = .bool
  | .switch _ _ cases fallback =>
    e.ty = .void ∨ (∀ c ∈ cases, c.body.ty = e.ty) ∧ ∀ b ∈ fallback, b.ty = e.ty
  | .typeTest .. => e.ty = .bool
  | .tryCatch body _ _ _ => e.ty = body.ty
  | .constant _ | .defaultOf | .convert _ | .throw _ | .block .. | .jump .. => True

/-- Every node of the tree has its own type. -/
def WellTyped (e : Expr) : Prop := e.All HasOwnType

/-- The node has its own type; but handlers may also give nothing, and what is made without a constructor may be given
anything. -/
def HasLooseType (e : Expr) : Prop :=
  e.HasOwnType ∨
    match e.form with
    | .tryCatch .. => e.ty = .void
    | .new none _ => True
    | _ => False

/-- Every node of the tree has its own type, or a loose one. -/
def LooselyTyped (e : Expr) : Prop := e.All HasLooseType

/-- Variables, arrays and their elements, function literals, invocations and type tests have the types that their parts
determine. What is chosen between, for one, may have any types. -/
def HasBasicType (e : Expr) : Prop :=
  match e.form with
  | .var x => e.ty = x.ty
  | .newArray element .items _ => e.ty = .array element 1
  | .newArray element .bounds bounds => e.ty = .array element bounds.length
  | .index receiver indexer _ _ => e.ty = elementType receiver indexer
  | .invoke callee _ => e.ty = resultType callee
  | .lambda params body => e.ty = .function (params.map (·.ty)) body.ty
  | .typeTest .. => e.ty = .bool
  | _ => True

end Expr

variable {e n r : Expr}

theorem Expr.hasOwnType_conditional {test whenTrue whenFalse : Expr} (hf : e.form = .conditional test whenTrue whenFalse) :
    e.HasOwnType ↔ test.ty = .bool ∧ (e.ty = .void ∨ whenTrue.ty = e.ty ∧ whenFalse.ty = e.ty) := by
  rw [Expr.HasOwnType, hf]

theorem Expr.hasLooseType_conditional {test whenTrue whenFalse : Expr} (hf : e.form = .conditional test whenTrue whenFalse) :
    e.HasLooseType ↔ test.ty = .bool ∧ (e.ty = .void ∨ whenTrue.ty = e.ty ∧ whenFalse.ty = e.ty) := by
  simp only [Expr.HasLooseType, Expr.HasOwnType, hf, or_false]

/-- A node with sub-expressions of the same types has its own type, too. -/
theorem Expr.HasOwnType.of_rel (he : e.HasOwnType) (hty : n.ty = e.ty)
    (hrel : Form.Rel (fun a b => b.ty = a.ty) e.form n.form) : n.HasOwnType := by
  unfold Expr.HasOwnType at he ⊢
  rw [hty]
  generalize e.form = f, n.form = g at he hrel
  cases hrel with
  | @new m _ _ hs =>
    cases m with
    | none => cases he; cases hs; rfl
    | some m => exact he
  | @newArray _ k _ _ hs =>
    cases k with
    | items => exact he
    | bounds => simpa [hs.length_eq] using he
  | index h => simpa [Expr.elementType, h] using he
  | invoke h => simpa [Expr.resultType, h] using he
  | lambda h => simpa [h] using he
  | conditional h h' h'' => simpa [h, h', h''] using he
  | logical h h' => simpa [h, h'] using he
  | switch h hs h' =>
    refine he.imp_right fun ⟨hcases, hfallback⟩ => ⟨fun d hd => ?_, fun b hb => ?_⟩
    · obtain ⟨c, hc, hR⟩ := exists_left_of_forall₂ hs hd
      rw [hR.body, hcases c hc]
    · cases h' with
      | none => cases hb
      | some h =>
        cases hb
        rw [h, hfallback _ rfl]
  | tryCatch h => simpa [h] using he
  | _ => exact he

theorem Expr.HasLooseType.basic (he : e.HasLooseType) : e.HasBasicType := by
  unfold HasLooseType HasOwnType at he
  unfold HasBasicType
  generalize e.form = f at he ⊢
  cases f with
  | var | index | invoke | lambda | typeTest => exact he.resolve_right not_false
  | newArray _ kind =>
    cases kind with
    | items | bounds => exact he.resolve_right not_false
  | _ => trivial

theorem Expr.HasBasicType.of_rel (he : e.HasBasicType) (hty : n.ty = e.ty)
    (hrel : Form.Rel (fun a b => b.ty = a.ty) e.form n.form) : n.HasBasicType := by
  unfold Expr.HasBasicType at he ⊢
  rw [hty]
  generalize e.form = f, n.form = g at he hrel
  cases hrel with
  | @newArray _ k _ _ hs =>
    cases k with
    | items => exact he
    | bounds => simpa [hs.length_eq] using he
  | index h => simpa [Expr.elementType, h] using he
  | invoke h => simpa [Expr.resultType, h] using he
  | lambda h => simpa [h] using he
  | _ => exact he

/-- A condition on nodes that asks for basic types at least, and for nothing of sub-expressions but their types. -/
structure TypeRule (H : Expr → Prop) : Prop where
  basic {e : Expr} : H e → e.HasBasicType
  of_rel {e n : Expr} : H e → n.ty = e.ty → Form.Rel (fun a b => b.ty = a.ty) e.form n.form → H n

theorem typeRule_own : TypeRule Expr.HasOwnType := ⟨fun h => Expr.HasLooseType.basic (.inl h), .of_rel⟩

theorem typeRule_loose : TypeRule Expr.HasLooseType where
  basic h := h.basic
  of_rel {e n} he hty hrel := by
    refine he.imp (·.of_rel hty hrel) fun he => ?_
    rw [hty]
    generalize e.form = f, n.form = g at he hrel
    cases hrel with
    | tryCatch => exact he
    | @new m =>
      cases m with
      | none => trivial
      | some m => exact he
    | _ => exact he

section

variable {H : Expr → Prop} (hH : TypeRule H)

include hH

theorem all_of_rel {R : Expr → Expr → Prop} (he : H e) (hty : n.ty = e.ty) (hrel : Form.Rel R e.form n.form)
    (hR : ∀ a ∈ e.form.children, ∀ b, R a b → b.ty = a.ty ∧ b.All H) : n.All H := by
  refine .node (hH.of_rel he hty (hrel.imp fun a ha b h => (hR a ha b h).1)) fun c hc => ?_
  obtain ⟨a, ha, h⟩ := hrel.exists_left hc
  exact (hR a ha c h).2

end

theorem wellTyped_of_rel {R : Expr → Expr → Prop} (he : e.HasOwnType) (hty : n.ty = e.ty)
    (hrel : Form.Rel R e.form n.form) (hR : ∀ a ∈ e.form.children, ∀ b, R a b → b.ty = a.ty ∧ b.WellTyped) :
    n.WellTyped :=
  all_of_rel typeRule_own he hty hrel hR

theorem Expr.WellTyped.testsBoolean (h : e.WellTyped) : e.TestsBoolean :=
  h.mono fun a ha _ _ _ hf => by rw [Expr.HasOwnType, hf] at ha; exact ha

/-! ### Substitution and inlining -/

/-- A constant of another type is a constant, or a constant converted or discarded. -/
theorem Retyped.wellTyped_of_constant {ty : Ty} {value : Value} (h : Retyped ty e r) (he : e.form = .constant value) :
    r.WellTyped := by
  have hconstant : ∀ {a : Expr}, a.form = .constant value → a.WellTyped := fun ha =>
    .node (by rw [Expr.HasOwnType, ha]; trivial) (by rw [ha]; exact nofun)
  cases h with
  | same => exact hconstant he
  | constant _ hf _ _ hr => exact hconstant (by rw [hr, ← hf, he])
  | discarded _ _ _ _ hr | converted _ _ _ _ hr =>
    refine .node (by rw [Expr.HasOwnType, hr]; trivial) ?_
    rw [hr]
    exact List.forall_mem_singleton.2 (hconstant he)
  | defaultOf _ hf | throw _ hf | jump _ hf | conditional _ hf | block _ hf => rw [he] at hf; cases hf

theorem IsLiteral.wellTyped {facts : Facts} {p q : Var × Expr} (h : IsLiteral facts p q) : q.2.WellTyped := by
  obtain ⟨_, _, _, _, _, hc, hq⟩ := h
  exact hq.wellTyped_of_constant hc

section

variable {H : Expr → Prop} (hH : TypeRule H)

include hH

/-- **Substitution**: when variables are replaced by trees of their types, types are kept. -/
theorem Substituted.typed {s : Substitution} (h : Substituted s e r) (he : e.All H)
    (hs : ∀ p ∈ s, p.2.ty = p.1.ty ∧ p.2.All H) : r.ty = e.ty ∧ r.All H := by
  induction h with
  | done => exact ⟨rfl, he⟩
  | @var s e x hf =>
    cases hl : s.lookup x with
    | none => exact ⟨rfl, he⟩
    | some a =>
      obtain ⟨_, _, hs', _⟩ := List.lookup_eq_some_iff.1 hl
      obtain ⟨hty, ha⟩ := hs (x, a) (by simp [hs'])
      have hx : e.ty = x.ty := by simpa [Expr.HasBasicType, hf] using hH.basic he.here
      exact ⟨hty.trans hx.symm, ha⟩
  | node _ hty hrel _ ih =>
    refine ⟨hty, all_of_rel hH he.here hty (Form.rel_of_scoped hrel) ?_⟩
    rintro a ha b ⟨bound, hR⟩
    exact ih _ _ hR (he.child ha) fun p hp => hs p (List.mem_of_mem_filter hp)

/-- **Inlining**: the body of an invoked function literal has the type of the invocation, and it keeps it when literals are
substituted for the parameters. -/
theorem Inlined.typed {facts : Facts} {callee body b : Expr} {params : List Var} {args : List Expr} (hn : n.All H)
    (hform : n.form = .invoke callee args) (hcallee : callee.form = .lambda params body)
    (hliteral : ∀ p ∈ params.zip args, ∀ q, IsLiteral facts p q → q.2.All H) (h : Inlined facts params body args b) :
    b.ty = n.ty ∧ b.All H := by
  obtain ⟨_, _, s, hlit, hsub⟩ := h
  have hc : callee.All H := hn.child (by rw [hform]; exact List.mem_cons_self)
  have hbody : body.All H := hc.child (by rw [hcallee]; exact List.mem_cons_self)
  have hs : ∀ q ∈ s, q.2.ty = q.1.ty ∧ q.2.All H := by
    intro q hq
    obtain ⟨p, hp, hlit⟩ := exists_left_of_forall₂ hlit hq
    obtain ⟨hx, _, _, _, _, _, hq'⟩ := id hlit
    exact ⟨by rw [hq'.ty_eq, hx], hliteral p hp q hlit⟩
  obtain ⟨hbty, hb⟩ := hsub.typed hH hbody hs
  have hty : n.ty = body.ty := by
    have hnt : n.ty = Expr.resultType callee := by simpa [Expr.HasBasicType, hform] using hH.basic hn.here
    have hct : callee.ty = .function (params.map (·.ty)) body.ty := by
      simpa [Expr.HasBasicType, hcallee] using hH.basic hc.here
    rw [hnt, Expr.resultType, hct]
  exact ⟨hbty.trans hty.symm, hb⟩

end

/-- The value of `b` may be the value of `n`. -/
inductive Expr.Branch (n : Expr) : Expr → Prop where
  | conditional {test a b c : Expr} : n.form = .conditional test a b → c ∈ [a, b] → Branch n c
  | logical {op : Connective} {left right c : Expr} : n.form = .logical op left right → c ∈ [left, right] → Branch n c
  | case {value : Expr} {comparison : Option Member} {cases : List (Case Expr)} {fallback : Option Expr} {c : Case Expr} :
      n.form = .switch value comparison cases fallback → c ∈ cases → Branch n c.body
  | fallback {value b : Expr} {comparison : Option Member} {cases : List (Case Expr)} :
      n.form = .switch value comparison cases (some b) → Branch n b
  | body {b : Expr} {clauses : List (Clause Expr)} {cleanup onFault : Option Expr} :
      n.form = .tryCatch b clauses cleanup onFault → Branch n b

/-- A branch has the type of the node, unless its value is discarded. -/
theorem Expr.Branch.ty_eq {b : Expr} (h : n.Branch b) (hn : n.HasLooseType) : n.ty = .void ∨ b.ty = n.ty := by
  cases h with
  | conditional hf hc =>
    refine ((hasLooseType_conditional hf).1 hn).2.imp_right fun h => ?_
    rcases List.mem_pair.1 hc with rfl | rfl
    · exact h.1
    · exact h.2
  | logical hf hc =>
    simp only [HasLooseType, HasOwnType, hf, or_false] at hn
    right
    rcases List.mem_pair.1 hc with rfl | rfl
    · rw [hn.2.1, hn.1]
    · rw [hn.2.2, hn.1]
  | case hf hc =>
    simp only [HasLooseType, HasOwnType, hf, or_false] at hn
    exact hn.imp_right fun h => h.1 _ hc
  | fallback hf =>
    simp only [HasLooseType, HasOwnType, hf, or_false] at hn
    exact hn.imp_right fun h => h.2 _ rfl
  | body hf =>
    simp only [HasLooseType, HasOwnType, hf] at hn
    rcases hn with h | h
    · exact .inr h.symm
    · exact .inl h

namespace Optimizer

variable {σ κ : Type} {o : Optimizer σ κ}

/-- What is made of a well-typed node by inlining is well typed. -/
theorem Inlines.wellTyped {reduced : Expr} (h : o.Inlines n reduced) (hn : n.WellTyped) : reduced.WellTyped := by
  obtain ⟨callee, params, body, args, _, b, hform, hcallee, _, hinlined, hr⟩ := h
  obtain ⟨hty, hb⟩ := hinlined.typed typeRule_own hn hform hcallee fun _ _ _ hq => hq.wellTyped
  rw [hr.eq_of_ty hty]
  exact hb

theorem branch_of_caseTests {value test body : Expr} {comparison : Option Member} {cases : List (Case Expr)}
    {fallback : Option Expr} (hf : n.form = .switch value comparison cases fallback) (h : (test, body) ∈ caseTests cases) :
    n.Branch body := by
  obtain ⟨c, hc, hb⟩ := List.mem_flatMap.1 h
  obtain ⟨_, _, hb⟩ := List.mem_map.1 hb
  cases hb
  exact .case hf hc

theorem Chooses.branch {b : Expr} (h : o.Chooses n b) : n.Branch b := by
  cases h with
  | conditional hf => exact .conditional hf (by split <;> simp)
  | logical hf => exact .logical hf (by split <;> simp)
  | case hf _ ht => exact branch_of_caseTests hf (by rw [ht]; exact List.mem_append_right _ List.mem_cons_self)
  | fallback hf => exact .fallback hf
  | body hf => exact .body hf

/-- A branch that is chosen has the type of the node, unless its value is discarded. -/
theorem Chooses.ty_eq {b : Expr} (h : o.Chooses n b) (hn : n.HasOwnType) : n.ty = .void ∨ b.ty = n.ty :=
  h.branch.ty_eq (.inl hn)

end Optimizer

/-! ### Loosely typed trees stay so -/

theorem Expr.LooselyTyped.testsBoolean (h : e.LooselyTyped) : e.TestsBoolean :=
  h.mono fun a ha _ _ _ hf => by simpa [HasLooseType, HasOwnType, hf] using ha

/-- Of the forms that may have any type, only the parts matter. -/
theorem looselyTyped_of_form (he : e.HasOwnType) (hc : ∀ c ∈ e.form.children, c.LooselyTyped) : e.LooselyTyped :=
  .node (.inl he) hc

theorem Expr.IsLeaf.looselyTyped (h : r.IsLeaf) : r.LooselyTyped := by
  have hconstant : ∀ {c : Expr} {value : Value}, c.form = .constant value → c.LooselyTyped := fun hf =>
    looselyTyped_of_form (by rw [HasOwnType, hf]; trivial) (by rw [hf]; exact nofun)
  cases h with
  | constant hf => exact hconstant hf
  | defaultOf hf => exact looselyTyped_of_form (by rw [HasOwnType, hf]; trivial) (by rw [hf]; exact nofun)
  | throw hf hc =>
    refine looselyTyped_of_form (by rw [HasOwnType, hf]; trivial) ?_
    rw [hf]
    exact List.forall_mem_singleton.2 (hconstant hc)

/-- A throw may have any type. -/
theorem Retyped.looselyTyped_of_throw {ty : Ty} {exception : Option Expr} (h : Retyped ty e r) (hf : e.form = .throw exception)
    (he : e.LooselyTyped) : r.LooselyTyped := by
  have hr := h.throw_form hf
  refine looselyTyped_of_form (by rw [Expr.HasOwnType, hr]; trivial) fun c hc => he.child ?_
  rw [hf, ← hr]
  exact hc

/-- Forms that may have any type have their own. -/
theorem Expr.hasOwnType_of_untyped (h : e.form.isUntyped = true) : e.HasOwnType := by
  unfold Expr.HasOwnType
  generalize e.form = f at h
  cases f with
  | defaultOf | convert | throw | block | jump => trivial
  | _ => cases h

/-- The value of a tree may be discarded. -/
theorem Retyped.looselyTyped_of_void (h : Retyped .void e r) (he : e.LooselyTyped) : r.LooselyTyped := by
  refine h.all ⟨?_, ?_, ?_⟩ he
  · intro a b value _ _ _ _ hb
    exact .inl (by rw [Expr.HasOwnType, hb]; trivial)
  · intro a b _ _ _ _ _ ha hf _ _ hty hb
    have htest := ((Expr.hasLooseType_conditional hf).1 ha).1
    exact .inl ((Expr.hasOwnType_conditional hb).2 ⟨htest, .inl hty⟩)
  · intro b _ huntyped
    exact .inl (Expr.hasOwnType_of_untyped huntyped)

namespace Optimizer

variable {σ κ : Type} {o : Optimizer σ κ} {cx : Context}
variable (hraise : ∀ {t}, o.facts.alwaysThrows t = true → ∃ exception, t.form = .throw exception)

include hraise

/-- **One step** keeps a tree loosely typed. -/
theorem Step.looselyTyped (h : o.Step n cx r) (hn : n.LooselyTyped) : r.LooselyTyped := by
  cases h with
  | kept => exact hn
  | threw ht hr =>
    obtain ⟨exception, hf⟩ := hraise ht.throws
    exact hr.looselyTyped_of_throw hf (ht.all fun _ => hn.child)
  | @threwAfter pre post t t' r hops hthrows _ hr _ hform =>
    have hmem : ∀ a ∈ pre ++ t :: post, a.LooselyTyped :=
      fun a ha => hn.child (Form.mem_children_of_operands (hops ▸ ha))
    obtain ⟨exception, hf⟩ := hraise hthrows
    refine looselyTyped_of_form (by rw [Expr.HasOwnType, hform]; trivial) ?_
    rw [hform]
    simp only [Form.children, List.mem_append, List.mem_filter, List.mem_singleton]
    rintro c (⟨hc, _⟩ | rfl)
    · exact hmem c (by simp [hc])
    · exact hr.looselyTyped_of_throw hf (hmem t (by simp))
  | called _ _ _ _ ha => exact ha.isLeaf.looselyTyped
  | folded _ hc => exact hc.isLeaf.looselyTyped
  | decided => exact (Expr.IsLeaf.constant rfl).looselyTyped
  | branch hb hr =>
    rcases hb.branch.ty_eq hn.here with hvoid | hty
    · rw [hvoid] at hr
      exact hr.looselyTyped_of_void (hn.child hb.mem)
    · rw [hr.eq_of_ty hty]
      exact hn.child hb.mem
  | defaulted _ _ _ _ hform => exact (Expr.IsLeaf.defaultOf hform).looselyTyped
  | @flattened test whenTrue whenFalse innerTest innerTrue innerFalse both r hform htrue _ _ _ hty _ _ hbty hboth hrty hr =>
    have houter : ∀ c ∈ [test, whenTrue, whenFalse], c.LooselyTyped := fun c hc => hn.child (by rw [hform]; exact hc)
    have hinner : ∀ c ∈ [innerTest, innerTrue, innerFalse], c.LooselyTyped :=
      fun c hc => (houter whenTrue (by simp)).child (by rw [htrue]; exact hc)
    have hown := (Expr.hasLooseType_conditional hform).1 hn.here
    have hown' := (Expr.hasLooseType_conditional htrue).1 (houter whenTrue (by simp)).here
    have hb : both.LooselyTyped := by
      refine looselyTyped_of_form (by rw [Expr.HasOwnType, hboth]; exact ⟨hbty, hown.1, hown'.1⟩) ?_
      rw [hboth]
      simpa [Form.children] using ⟨houter test (by simp), hinner innerTest (by simp)⟩
    refine looselyTyped_of_form ((Expr.hasOwnType_conditional hr).2 ⟨hbty, ?_⟩) ?_
    · rw [hrty]
      rcases hown.2 with hvoid | hbranches
      · exact .inl hvoid
      · rcases hown'.2 with hvoid | hbranches'
        · exact .inl (hty.symm.trans hvoid)
        · exact .inr ⟨hbranches'.1.trans hty, hbranches.2⟩
    · rw [hr]
      simpa [Form.children] using ⟨hb, hinner innerTrue (by simp), houter whenFalse (by simp)⟩
  | @simplified body r clauses kept cleanup onFault hform hsimplified _ hty hr =>
    refine .node ?_ fun c hc => hn.child ?_
    · have hown := hn.here
      simp only [Expr.HasLooseType, Expr.HasOwnType, hform, hr, hty] at hown ⊢
      exact hown
    · rw [hr] at hc
      rw [hform]
      exact mem_children_of_simplified hsimplified hc

omit hraise

theorem Inlines.looselyTyped {reduced : Expr} (h : o.Inlines n reduced) (hn : n.LooselyTyped) : reduced.LooselyTyped := by
  obtain ⟨callee, params, body, args, _, b, hform, hcallee, _, hinlined, hr⟩ := h
  obtain ⟨hty, hb⟩ := hinlined.typed typeRule_loose hn hform hcallee fun _ _ _ hq => hq.wellTyped.mono fun _ => .inl
  rw [hr.eq_of_ty hty]
  exact hb

end Optimizer

/-! ### What visits keep -/

namespace Optimizer

variable {σ κ : Type} {o : Optimizer σ κ} {cx : Context}

/-- Steps and inlining keep the type of a tree and the condition on its nodes. -/
structure Preserves (o : Optimizer σ κ) (H : Expr → Prop) : Prop where
  rule : TypeRule H
  step {cx : Context} {n r : Expr} : o.Step n cx r → n.All H → r.All H
  inlines {n reduced : Expr} : o.Inlines n reduced → n.All H → reduced.All H

section

variable {H : Expr → Prop} (hH : o.Preserves H)

include hH

theorem Preserves.testsBoolean (he : e.All H) : e.TestsBoolean :=
  he.mono fun a ha _ _ _ hf => by simpa [Expr.HasBasicType, hf] using hH.rule.basic ha

/-- A node with visited sub-expressions is as `H` says when they are. -/
theorem Preserves.rebuilt {R : Expr × Context → Expr → Prop} (he : e.All H) (hvisits : ∀ p c, R p c → o.Visits p.2 p.1 c)
    (hrel : Form.Rel R (o.facts.inContext cx e.form) n.form) (hty : n.ty = e.ty)
    (hR : ∀ p c, R p c → p.1.All H → c.All H) : n.All H := by
  refine all_of_rel hH.rule he.here hty (o.facts.rel_of_inContext hrel) ?_
  rintro a ha b ⟨cx, hb⟩
  have ha : a.All H := he.child ha
  exact ⟨((hvisits _ _ hb).testsBoolean (hH.testsBoolean ha)).1, hR _ _ hb ha⟩

/-- **Visits** keep what steps and inlining keep. -/
theorem Preserves.visits (h : o.Visits cx e r) (he : e.All H) : r.All H := by
  induction h with
  | skipped => exact he
  | settled hvisits hrel hty _ hstep ih => exact hH.step hstep (hH.rebuilt he hvisits hrel hty ih)
  | inlined hvisits hrel hty hin _ ih ihr => exact ihr (hH.inlines hin (hH.rebuilt he hvisits hrel hty ih))

end

variable (hraise : ∀ {t}, o.facts.alwaysThrows t = true → ∃ exception, t.form = .throw exception)

include hraise

/-- Loosely typed trees are kept so. -/
theorem preserves_looselyTyped : o.Preserves Expr.HasLooseType where
  rule := typeRule_loose
  step h hn := h.looselyTyped hraise hn
  inlines h hn := h.looselyTyped hn

theorem Visits.looselyTyped (h : o.Visits cx e r) (he : e.LooselyTyped) : r.LooselyTyped :=
  (preserves_looselyTyped hraise).visits h he

end Optimizer

end TypedTree
