import Mathlib.Data.Prod.Lex
import Mathlib.Order.WellFounded
import TypedTree.Proofs.Plans
import TypedTree.Proofs.TwoRuns
import TypedTree.Proofs.Typing

/-!
# Visits descend

A visit goes into the sub-expressions of a tree and, after inlining, into a tree that was just made. How deeply it may go is
bounded by numbers in `Optimizer.visitWithin`. Here is the recursion without them. `Optimizer.descend` may only go into a tree
whose size is smaller, where the size of a tree (`Expr.size`) is the number of its function literals and then the number of
its nodes; and what inlining made must have fewer function literals than the invocation it was made of. It is halted as soon
as this fails, so it needs no bound. A visit is this recursion, and it is never halted that way (`visit_descends`).
-/

namespace TypedTree

/-- The size of a tree: its function literals count first, then its nodes. -/
def Expr.size (e : Expr) : ℕ ×ₗ ℕ := toLex (e.lambdaCount, e.nodeCount)

theorem Expr.nodeCount_child {e c : Expr} (hc : c ∈ e.form.children) : c.nodeCount < e.nodeCount := by
  have hle : c.nodeCount ≤ (e.form.children.map nodeCount).sum := List.le_sum_of_mem (List.mem_map_of_mem hc)
  rw [e.nodeCount_eq, Form.sum_map]
  omega

/-- A sub-expression is smaller. -/
theorem Expr.size_child {e c : Expr} (hc : c ∈ e.form.children) : c.size < e.size := by
  have hlambdas : c.lambdaCount ≤ e.lambdaCount := lambdaCount_child hc
  have hnodes : c.nodeCount < e.nodeCount := nodeCount_child hc
  rw [size, size, Prod.Lex.toLex_lt_toLex]
  show c.lambdaCount < e.lambdaCount ∨ c.lambdaCount = e.lambdaCount ∧ c.nodeCount < e.nodeCount
  omega

/-- A tree with fewer function literals is smaller. -/
theorem Expr.size_lt_of_lambdaCount {a b : Expr} (h : a.lambdaCount < b.lambdaCount) : a.size < b.size :=
  Prod.Lex.toLex_lt_toLex.2 (.inl h)

namespace Optimizer

variable {σ κ : Type} (o : Optimizer σ κ)

/-- Visits a tree by going into smaller ones only; what inlining makes must also have fewer function literals than the node
it was made of. The hooks before the rules are called, and what they give is left aside. -/
def descend (e : Expr) (cx : Context) : Run σ Expr := do
  if ← o.hooks.admits e then
    let _ ← o.hooks.before e
    let form ← (o.facts.inContext cx e.form).mapM fun p =>
      if _h : p.1.size < e.size then descend p.1 p.2 else throw .exhausted
    let node ← e.rebuild form
    o.finish (fun reduced cx =>
      if _h : reduced.lambdaCount < node.lambdaCount ∧ reduced.size < e.size then descend reduced cx
      else throw .exhausted) e node cx
  else return e
termination_by e.size
decreasing_by
  · exact _h
  · exact _h.2

variable {o} {st : Store}

open Store

/-! ### Runs that agree -/

/-- The rules for two runs that are equal, from all states of a world. -/
def agreeing : Logic (Twin (Run σ) (Run σ)) Store where
  reaches st x P := (∀ st₁, st ≤ st₁ → ∀ s : Progress σ, st₁.Within s.nodes → x.left s = x.right s) ∧
    (running fun _ => True).reaches st x.left P
  ofPure h := ⟨fun _ _ _ _ => rfl, (running fun _ => True).ofPure h⟩
  ofBind {_ _ _ x f _ _} hx hf := by
    refine ⟨fun st₁ hst s hs => ?_, (running fun _ => True).ofBind hx.2 fun st' hst' b hP => (hf st' hst' b hP).2⟩
    show EStateM.bind x.left _ s = EStateM.bind x.right _ s
    cases hx.2 st₁ hst s hs with
    | @result b s₂ hrun hQ =>
      obtain ⟨st₂, hst₂, hs₂, hP⟩ := hQ
      have hf := (hf st₂ (hst.trans hst₂) b hP).1 st₂ le_rfl s₂ hs₂
      simp only [EStateM.bind, ← hx.1 st₁ hst s hs, hrun, hf]
    | halted hrun => simp only [EStateM.bind, ← hx.1 st₁ hst s hs, hrun]
  ofImp hx h := ⟨hx.1, (running fun _ => True).ofImp hx.2 h⟩

theorem agrees_of_reaches {α : Type} {x : Run σ α} {P : Store → α → Prop} (h : (running fun _ => True).reaches st x P) :
    agreeing.reaches st ⟨x, x⟩ P :=
  ⟨fun _ _ _ _ => rfl, h⟩

theorem agrees_bind {α β : Type} {x x' : Run σ α} {f f' : α → Run σ β} {P : Store → α → Prop} {Q : Store → β → Prop}
    (hx : agreeing.reaches st ⟨x, x'⟩ P)
    (hf : ∀ st', st ≤ st' → ∀ a, P st' a → agreeing.reaches st' ⟨f a, f' a⟩ Q) :
    agreeing.reaches st ⟨x >>= f, x' >>= f'⟩ Q :=
  agreeing.ofBind hx hf

/-! ### Rules and visits -/

variable {cx : Context} {e n : Expr} {again again' : Expr → Context → Run σ Expr}

/-- Only what inlining made is visited again, so rules agree when the visits of such trees do. -/
theorem rule_agrees (hn : n ∈ st) {A : Store → Expr → Expr → Prop}
    (hagain : ∀ st' reduced, st ≤ st' → reduced ∈ st' → o.Inlines n reduced →
      agreeing.reaches st' ⟨again reduced cx, again' reduced cx⟩ fun st'' r => A st'' reduced r) :
    agreeing.reaches st ⟨o.rule again n cx, o.rule again' n cx⟩ (o.Settled cx n A) := by
  refine ⟨?_, rule_reaches (fun _ => trivial) hn fun st' reduced hst hmem hin => (hagain st' reduced hst hmem hin).2⟩
  obtain ⟨plan, hplan, hrule⟩ := o.exists_rule_eq n cx
  rw [hrule, hrule]
  cases hplan with
  | @inline callee body params args values hform hcallee hknown =>
    have hbody : body ∈ st := mem_body_of_invoke hn hform hcallee
    refine (agrees_bind (Q := fun _ _ => True) (agrees_of_reaches (Run.reaches_fresh (inline?_reaches o.facts hbody))) ?_).1
    intro st₁ hst₁ found hfound
    cases found with
    | none => exact agreeing.ofPure fun _ _ => trivial
    | some r =>
      obtain ⟨hr, hinlined⟩ := hfound r rfl
      refine agrees_bind (agrees_of_reaches (retype_reaches (o := o) (fun _ => trivial) hr)) ?_
      rintro st₂ hst₂ reduced ⟨hreduced, hretyped⟩
      refine agrees_bind (agrees_of_reaches Run.reaches_record) fun st₃ hst₃ _ _ => ?_
      have hinlines : o.Inlines n reduced :=
        ⟨callee, params, body, args, values, r, hform, hcallee, hknown, hinlined, hretyped⟩
      refine agreeing.ofImp (hagain st₃ reduced ?_ (mem_of_le hst₃ hreduced) hinlines) fun _ _ _ _ => trivial
      exact hst₁.trans (hst₂.trans hst₃)
  | @select _ comparison => cases comparison <;> exact fun _ _ _ _ => rfl
  | _ => exact fun _ _ _ _ => rfl

/-- A visit is the recursion without bounds, for trees with fewer than `bound` function literals. -/
def Descends (o : Optimizer σ κ) (bound : Nat) (visit : Expr → Context → Run σ Expr) : Prop :=
  ∀ st e cx, e ∈ st → e.lambdaCount < bound → agreeing.reaches st ⟨visit e cx, o.descend e cx⟩ (o.Visited cx e)

theorem Descends.sound {bound : Nat} {visit : Expr → Context → Run σ Expr} (h : o.Descends bound visit) :
    o.Sound (fun _ => True) (fun _ => True) bound visit :=
  fun st e cx he hbound _ => (h st e cx he hbound).2

theorem guards_nothing : o.Guards (fun _ => True) fun _ => True where
  child _ _ := trivial
  rebuilt _ _ _ _ := trivial
  inlined _ _ := trivial
  typeChanged _ _ _ := trivial
  rule _ hn hagain := rule_reaches (fun _ => trivial) hn hagain

theorem finish_agrees {s : Progress σ} (h : o.rule again n cx s = o.rule again' n cx s) :
    o.finish again e n cx s = o.finish again' e n cx s := by
  show EStateM.bind _ _ s = EStateM.bind _ _ s
  simp only [EStateM.bind, h]

/-- One pass descends when the visits of what it makes do. -/
theorem pass_descends (ho : o.hooks.Transparent) {bound : Nat} (hagain : o.Descends bound again) :
    o.Descends (bound + 1) (o.pass again) := by
  intro st e
  induction e using Expr.inductionOn generalizing st with
  | node e ih =>
    intro cx he hbound
    rw [pass_eq, descend]
    refine agrees_bind (agrees_of_reaches (Run.reaches_effect _)) fun st₁ hst₁ admitted ⟨w, hw⟩ => ?_
    split
    · refine agrees_bind (agrees_of_reaches (Run.reaches_effect _)) ?_
      rintro st₂ hst₂ _ ⟨w', rfl⟩
      rw [ho.before]
      simp only [Expr.same, beq_self_eq_true, if_true]
      let R : Store → Expr × Context → Expr → Prop := fun st p c => o.Visited p.2 p.1 st c
      have hR : Lasting R := fun _ _ hk _ _ h => ⟨mem_of_le hk h.1, h.2⟩
      have hmap : agreeing.reaches st₂ ⟨(o.facts.inContext cx e.form).mapM fun p => o.pass again p.1 p.2,
          (o.facts.inContext cx e.form).mapM fun p =>
            if _h : p.1.size < e.size then o.descend p.1 p.2 else throw .exhausted⟩
          fun st₃ form => Form.Rel (R st₃) (o.facts.inContext cx e.form) form := by
        rw [← Form.mapM_twin]
        refine Form.mapM_reaches agreeing hR fun p hp st₃ hst₃ => ?_
        have hc : p.1 ∈ e.form.children := o.facts.mem_of_inContext hp
        rw [dif_pos (Expr.size_child hc)]
        exact ih p.1 hc st₃ p.2 (mem_of_le (hst₁.trans (hst₂.trans hst₃)) (child he hc))
          ((Expr.lambdaCount_child hc).trans_lt hbound)
      refine agrees_bind hmap fun st₃ hst₃ form hform => ?_
      have hshape : Form.Rel (fun _ _ => True) e.form form :=
        (o.facts.rel_of_inContext hform).mono fun _ _ _ => trivial
      have hparts : ∀ c ∈ form.children, c ∈ st₃ := by
        intro c hc
        obtain ⟨_, _, h⟩ := hform.exists_left hc
        exact h.1
      have hmem : e ∈ st₃ := mem_of_le (hst₁.trans (hst₂.trans hst₃)) he
      refine agrees_bind (agrees_of_reaches (Run.reaches_fresh (Expr.rebuild_reaches hmem hshape hparts))) ?_
      rintro st₄ _ n ⟨hn, hty, hnform⟩
      have hrel : Form.Rel (R st₃) (o.facts.inContext cx e.form) n.form := hform.trans_eq hnform
      have hcount : n.lambdaCount ≤ e.lambdaCount := by
        refine lambdaCount_le_of_rel (o.facts.rel_of_inContext hrel) ?_
        rintro a b ⟨cx, h⟩
        exact h.2.lambdaCount_le
      refine ⟨fun st₅ hst₅ s hs => finish_agrees ?_, finish_reaches guards_nothing ho hagain.sound hn
        (fun _ _ h => h.2) hrel hty hbound trivial⟩
      refine (rule_agrees (A := fun st reduced => o.Visited cx reduced st) hn ?_).1 st₅ hst₅ s hs
      intro st' reduced _ hreduced hin
      have hlt : reduced.lambdaCount < n.lambdaCount := hin.lambdaCount_lt
      rw [dif_pos ⟨hlt, Expr.size_lt_of_lambdaCount (hlt.trans_le hcount)⟩]
      exact hagain st' reduced cx hreduced (by omega)
    · next h =>
      have hw : (o.hooks.admits e w).1 = false := by simpa [hw] using h
      exact agreeing.ofPure fun _ hk => ⟨mem_of_le (hst₁.trans hk) he, .skipped hw⟩

theorem visitWithin_descends (ho : o.hooks.Transparent) {bound : Nat} {last : Expr → Context → Run σ Expr}
    (hlast : o.Descends bound last) (fuel : Nat) : o.Descends (bound + fuel + 1) (o.visitWithin last fuel) := by
  induction fuel with
  | zero => exact pass_descends ho hlast
  | succ fuel ih => exact pass_descends ho ih

/-- **Visits descend**: the bounds of a visit are never met. -/
theorem visit_eq_descend (ho : o.hooks.Transparent) {s : Progress σ} (he : e.Identified s.nodes) :
    o.visit e cx s = o.descend e cx s := by
  have hnone : o.Descends 0 fun _ _ => throw .exhausted := fun _ _ _ _ h => absurd h (Nat.not_lt_zero _)
  have hmade : o.Descends (e.lambdaCount + 1) o.visitMade := fun st a cx ha _ =>
    visitWithin_descends ho hnone a.lambdaCount st a cx ha (by omega)
  obtain ⟨st, hst, hmem⟩ := he
  exact (visitWithin_descends ho hmade o.hooks.allowance st e cx hmem (by omega)).1 st le_rfl s hst

end Optimizer

/-! ### Visits come to an end -/

open Store

/-- **Visits terminate**: whatever the tree, the context, the settings, the catalog and the evaluators, and with hooks that
replace nothing, a visit is the recursion that goes into smaller trees only, and into what inlining made only when that has
fewer function literals than the invocation. None of its checks fails, for it is not halted by one; and a result has no more
function literals than the tree. -/
theorem visit_descends {σ κ : Type} (catalog : Catalog) (evaluators : Evaluators σ κ) (hooks : Hooks σ) (settings : Settings)
    (hooks_transparent : hooks.Transparent) (e : Expr) (cx : Context) (s : Progress σ) (identified : e.Identified s.nodes) :
    let o : Optimizer σ κ := ⟨catalog.facts, evaluators, hooks, settings⟩
    o.visit e cx s = o.descend e cx s ∧
      (o.visit e cx).Ends s (fun r _ => r.lambdaCount ≤ e.lambdaCount) (fun halt => halt ≠ .exhausted) := by
  intro o
  refine ⟨Optimizer.visit_eq_descend hooks_transparent identified, ?_⟩
  have hfault : ∀ fault, Halt.fault fault ≠ .exhausted := nofun
  have hchanged : ∀ a b, Halt.typeChanged a b ≠ .exhausted := nofun
  refine (Optimizer.visit_ends (E := (· ≠ .exhausted)) hfault hooks_transparent identified (.inr hchanged)).imp ?_
  exact fun r _ h => h.1.lambdaCount_le

/-- A function literal that passes its parameter on to another one, invoked on a text. -/
def nestedCall : Fresh .node Expr := do
  let x : Var := ⟨0, "x", .string⟩
  let y : Var := ⟨1, "y", .string⟩
  let test ← Expr.typeTest (← Expr.var y) .string .isInstance
  let inner ← Expr.invoke (← Expr.lambda [y] test) [← Expr.var x]
  Expr.invoke (← Expr.lambda [x] inner) [← Expr.string "a"]

theorem nestedCall_reaches : making.reaches initial nestedCall fun st e => e ∈ st := by
  refine making.ofBind (Expr.make_mem rfl (List.forall_mem_nil _)) fun st₁ _ y hy => ?_
  refine making.ofBind (Expr.make_mem rfl (by simpa [Form.children] using hy)) fun st₂ _ test htest => ?_
  refine making.ofBind (Expr.make_mem rfl (by simpa [Form.children] using htest)) fun st₃ _ callee hcallee => ?_
  refine making.ofBind (Expr.make_mem rfl (List.forall_mem_nil _)) fun st₄ hst₄ x hx => ?_
  refine making.ofBind (Expr.make_mem rfl ?_) fun st₅ _ inner hinner => ?_
  · simpa [Form.children] using ⟨mem_of_le hst₄ hcallee, hx⟩
  refine making.ofBind (Expr.make_mem rfl (by simpa [Form.children] using hinner)) fun st₆ _ callee hcallee => ?_
  refine making.ofBind (Expr.make_mem rfl (List.forall_mem_nil _)) fun st₇ hst₇ arg harg => ?_
  apply Expr.make_mem rfl
  simpa [Form.children] using ⟨mem_of_le hst₇ hcallee, harg⟩

theorem visit_descends_nestedCall :
    let e := (nestedCall ⟨0⟩).1
    let s : Progress Console := ⟨(nestedCall ⟨0⟩).2, ⟨⟨0⟩, .empty⟩, .empty⟩
    e.Identified s.nodes ∧ e.lambdaCount = 2 ∧
      (match Optimizer.bare.visit e .plain s with
        | .ok r s' => r == Expr.boolean true && s'.tally.inlined == 2
        | .error _ _ => false) = true ∧
      Optimizer.bare.visit e .plain s = Optimizer.bare.descend e .plain s ∧
      (Optimizer.bare.visit e .plain).Ends s (fun r _ => r.lambdaCount ≤ e.lambdaCount) (fun halt => halt ≠ .exhausted) := by
  have identified : (nestedCall ⟨0⟩).1.Identified (nestedCall ⟨0⟩).2 := Expr.identified_of_reaches nestedCall_reaches _
  refine ⟨identified, by decide +kernel, by decide +kernel, ?_⟩
  exact visit_descends .empty Registry.empty.natives .none .standard Hooks.none_transparent _ .plain
    ⟨_, ⟨⟨0⟩, .empty⟩, .empty⟩ identified

end TypedTree
