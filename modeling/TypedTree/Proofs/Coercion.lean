import TypedTree.Proofs.Faults
import TypedTree.Proofs.Purity
import TypedTree.Proofs.Scope

/-!
# Retyping changes the type and nothing else

A replacement is given the type of the node that it replaces, and every reduction relies on this to be harmless. Retyping to
`void` always succeeds (`Expr.retype_void`), since a value of any form can be discarded. Where retyping succeeds, the free
variables, the purity and whether the expression throws stay as they are, and so does everything on the way to the places
that the value comes from: the tests of conditionals, and the locals and all but the last expressions of blocks.

`Expr.WalksTo ty e r d d'` says that retyping `e` into `r` comes to `d`, of which it makes `d'`.
-/

namespace TypedTree

/-! ### What a retyped expression is -/

namespace Retyped

variable {ty : Ty} {e r : Expr}

/-- A throw stays a throw, and nothing else becomes one. -/
theorem isThrow_eq (h : Retyped ty e r) : r.isThrow = e.isThrow := by
  unfold Expr.isThrow
  cases h with
  | same => rfl
  | constant _ hf _ _ hr | defaultOf _ hf _ _ hr | throw _ hf _ hr | jump _ hf _ hr
  | conditional _ hf _ _ _ _ hr | block _ hf _ _ hr => rw [hf, hr]
  | discarded _ hf _ _ hr | converted _ hf _ _ hr =>
    rw [hr]
    cases he : e.form with
    | throw => rw [he] at hf; cases hf
    | _ => rfl

/-- A conditional of another type is retyped in its branches. -/
theorem conditional_form {test a b : Expr} (h : Retyped ty e r) (hty : e.ty ≠ ty) (he : e.form = .conditional test a b) :
    ∃ a' b', r.form = .conditional test a' b' ∧ Retyped ty a a' ∧ Retyped ty b b' := by
  cases h with
  | same h => exact absurd h hty
  | conditional _ hf ha hb _ _ hr =>
    cases he.symm.trans hf
    exact ⟨_, _, hr, ha, hb⟩
  | discarded _ hf | converted _ hf => rw [he] at hf; cases hf
  | constant _ hf | defaultOf _ hf | throw _ hf | jump _ hf | block _ hf => rw [he] at hf; cases hf

/-- A block of another type is retyped in its last expression. -/
theorem block_form {locals : List Var} {init : List Expr} {last : Expr} (h : Retyped ty e r) (hty : e.ty ≠ ty)
    (he : e.form = .block locals (init ++ [last])) :
    ∃ last', r.form = .block locals (init ++ [last']) ∧ Retyped ty last last' := by
  cases h with
  | same h => exact absurd h hty
  | block _ hf hl _ hr =>
    obtain ⟨rfl, hbody⟩ := Form.block.inj (he.symm.trans hf)
    obtain ⟨rfl, hlast⟩ := List.append_inj' hbody rfl
    cases hlast
    exact ⟨_, hr, hl⟩
  | discarded _ hf | converted _ hf => rw [he] at hf; simp [Form.isFlexible] at hf
  | constant _ hf | defaultOf _ hf | throw _ hf | jump _ hf | conditional _ hf => rw [he] at hf; cases hf

end Retyped

namespace Expr

variable {ty : Ty} {e r d d' : Expr}

/-! ### Where retyping goes -/

/-- Retyping `e` into `r` comes to `d`, of which it makes `d'`: it starts at `e`, and from an expression that does not have
the type yet it goes on to the branches of a conditional and to the last expression of a block. -/
inductive WalksTo (ty : Ty) (e r : Expr) : Expr → Expr → Prop where
  /-- The whole expression. -/
  | start : WalksTo ty e r e r
  /-- The branch for `true`. -/
  | whenTrue {d d' test test' a a' b b' : Expr} : WalksTo ty e r d d' → d.ty ≠ ty → d.form = .conditional test a b →
      d'.form = .conditional test' a' b' → WalksTo ty e r a a'
  /-- The branch for `false`. -/
  | whenFalse {d d' test test' a a' b b' : Expr} : WalksTo ty e r d d' → d.ty ≠ ty → d.form = .conditional test a b →
      d'.form = .conditional test' a' b' → WalksTo ty e r b b'
  /-- The last expression. -/
  | last {d d' last last' : Expr} {locals locals' : List Var} {init init' : List Expr} : WalksTo ty e r d d' → d.ty ≠ ty →
      d.form = .block locals (init ++ [last]) → d'.form = .block locals' (init' ++ [last']) → WalksTo ty e r last last'

/-- What retyping comes to is retyped. -/
theorem WalksTo.retyped (h : WalksTo ty e r d d') (hr : Retyped ty e r) : Retyped ty d d' := by
  induction h with
  | start => exact hr
  | whenTrue _ hty hd hd' ih =>
    obtain ⟨_, _, hform, ha, _⟩ := ih.conditional_form hty hd
    cases hform.symm.trans hd'
    exact ha
  | whenFalse _ hty hd hd' ih =>
    obtain ⟨_, _, hform, _, hb⟩ := ih.conditional_form hty hd
    cases hform.symm.trans hd'
    exact hb
  | last _ hty hd hd' ih =>
    obtain ⟨_, hform, hl⟩ := ih.block_form hty hd
    obtain ⟨_, hbody⟩ := Form.block.inj (hform.symm.trans hd')
    obtain ⟨_, hlast⟩ := List.append_inj' hbody rfl
    cases hlast
    exact hl

/-- `d'` is `d` under the type `ty`, with the parts from which no value comes kept as they are. -/
structure KeepsParts (ty : Ty) (d d' : Expr) : Prop where
  ty_eq : d'.ty = ty
  /-- The node itself, if it has the type. -/
  node : d.ty = ty → d' = d
  /-- The test of a conditional. -/
  test : ∀ {test a b}, d.form = .conditional test a b → ∃ a' b', d'.form = .conditional test a' b'
  /-- The locals of a block, and its expressions but for the last. -/
  init : ∀ {locals init last}, d.form = .block locals (init ++ [last]) →
    ∃ last', d'.form = .block locals (init ++ [last'])

theorem keepsParts_of_retyped (h : Retyped ty d d') : KeepsParts ty d d' where
  ty_eq := h.ty_eq
  node := h.eq_of_ty
  test {test a b} hd := by
    by_cases hty : d.ty = ty
    · exact ⟨a, b, by rw [h.eq_of_ty hty, hd]⟩
    · obtain ⟨a', b', hd', _⟩ := h.conditional_form hty hd
      exact ⟨a', b', hd'⟩
  init {locals init last} hd := by
    by_cases hty : d.ty = ty
    · exact ⟨last, by rw [h.eq_of_ty hty, hd]⟩
    · obtain ⟨last', hd', _⟩ := h.block_form hty hd
      exact ⟨last', hd'⟩

/-- A value of any form can be discarded. -/
theorem retype_void (e : Expr) (s : Supply .node) : ∃ r s', e.retype .void s = .ok (r, s') := by
  cases h : e.retype .void s with
  | ok p => exact ⟨p.1, p.2, rfl⟩
  | error fault => exact (retype_failsAs (F := fun _ => False) e (fun hty => absurd rfl hty) s fault h).elim

end Expr

/-- **Retyping** to `void` always succeeds. Where retyping to any type does, the result has that type, is the very node
exactly when the node has the type, and has the free variables, the purity and the throwing of the expression; on the way to
the places that the value comes from, everything else is kept. -/
theorem retype_keeps_all_but_type (e : Expr) (ty : Ty) (s : Supply .node) (identified : e.Identified s) :
    (∃ r s', e.retype .void s = .ok (r, s')) ∧
      ∀ r s', e.retype ty s = .ok (r, s') →
        r.ty = ty ∧ (r.same e = true ↔ e.ty = ty) ∧ (∀ x, x ∈ freeVars [r] ↔ x ∈ freeVars [e]) ∧
          (∀ catalog : Catalog, catalog.facts.isPure r = catalog.facts.isPure e ∧
            catalog.facts.alwaysThrows r = catalog.facts.alwaysThrows e) ∧
          ∀ d d', Expr.WalksTo ty e r d d' → Expr.KeepsParts ty d d' := by
  refine ⟨e.retype_void s, fun r s' hrun => ?_⟩
  obtain ⟨st, hst, he⟩ := identified
  obtain ⟨st', hle, _, hr, hretyped, _⟩ := Expr.retype_reaches e ty he st le_rfl s hst r s' hrun
  refine ⟨hretyped.ty_eq, ⟨fun hsame => ?_, fun hty => ?_⟩, fun x => ?_, fun catalog => ?_, fun d d' hwalk => ?_⟩
  · rw [← Store.eq_of_same hr (Store.mem_of_le hle he) hsame]
    exact hretyped.ty_eq
  · rw [hretyped.eq_of_ty hty]
    exact beq_self_eq_true _
  · simp [mem_freeVars, hretyped.free_iff]
  · exact ⟨hretyped.isPure_eq, hretyped.isThrow_eq⟩
  · exact Expr.keepsParts_of_retyped (hwalk.retyped hretyped)

open Store

/-- A conditional whose branches are a block that reads its local and gives `1`, and a variable. -/
def chosenCount : Fresh .node Expr := do
  let n : Var := ⟨0, "n", .int⟩
  let flag ← Expr.var ⟨1, "flag", .bool⟩
  let read ← Expr.var n
  let one ← Expr.integer 1
  let counted ← Expr.block [n] [read, one] .int
  let outer ← Expr.var n
  Expr.conditional flag counted outer .int

theorem chosenCount_reaches : making.reaches initial chosenCount fun st e => e ∈ st := by
  refine making.ofBind (Expr.make_mem rfl (List.forall_mem_nil _)) fun st₁ _ flag hflag => ?_
  refine making.ofBind (Expr.make_mem rfl (List.forall_mem_nil _)) fun st₂ hst₂ read hread => ?_
  refine making.ofBind (Expr.constant_reaches (.int 1) .int) ?_
  rintro st₃ hst₃ one ⟨hone, _⟩
  refine making.ofBind (Expr.make_mem rfl ?_) fun st₄ hst₄ counted hcounted => ?_
  · simpa [Form.children] using ⟨mem_of_le hst₃ hread, hone⟩
  refine making.ofBind (Expr.make_mem rfl (List.forall_mem_nil _)) fun st₅ hst₅ outer houter => ?_
  refine Expr.make_mem rfl ?_
  simpa [Form.children] using
    ⟨mem_of_le (((hst₂.trans hst₃).trans hst₄).trans hst₅) hflag, mem_of_le hst₅ hcounted, houter⟩

/-- Both branches get the nullable type, the first inside its block. -/
theorem retype_keeps_all_but_type_chosenCount :
    let e := (chosenCount ⟨0⟩).1
    let s := (chosenCount ⟨0⟩).2
    e.Identified s ∧ e.ty = .int ∧ ∃ r s', e.retype (.nullable .int) s = .ok (r, s') ∧
      r.form.children.map (·.ty) = [.bool, .nullable .int, .nullable .int] ∧ r.ty = .nullable .int ∧
        (∀ x, x ∈ freeVars [r] ↔ x ∈ freeVars [e]) ∧
          ∀ d d', Expr.WalksTo (.nullable .int) e r d d' → Expr.KeepsParts (.nullable .int) d d' := by
  intro e s
  have identified : e.Identified s := Expr.identified_of_reaches chosenCount_reaches ⟨0⟩
  have hok : (e.retype (.nullable .int) s).toOption.map (fun p => p.1.form.children.map (·.ty)) =
      some [.bool, .nullable .int, .nullable .int] := by decide +kernel
  cases hrun : e.retype (.nullable .int) s with
  | error fault => rw [hrun] at hok; cases hok
  | ok p =>
    rw [hrun] at hok
    obtain ⟨hty, _, hfree, _, hparts⟩ := (retype_keeps_all_but_type e (.nullable .int) s identified).2 p.1 p.2 hrun
    exact ⟨identified, rfl, p.1, p.2, rfl, Option.some.inj hok, hty, hfree, hparts⟩

end TypedTree
