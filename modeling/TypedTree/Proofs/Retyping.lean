import TypedTree.Expr.Retype
import TypedTree.Proofs.Identity

/-!
# What retyping does

`Retyped ty e r` says that `r` is `e` with the static type `ty`: the node itself when it has that type, the same
constant, default, throw or jump under another type, a conditional or block whose values are retyped, or else `e` in a
void block or under a conversion. `Expr.retype` gives such an `r` whenever it gives anything (`Expr.retype_reaches`).
-/

namespace TypedTree

/-- The form can be made again with any type: its value, if it has one, comes from its parts. -/
def Form.isFlexible {α : Type} : Form α → Bool
  | .throw _ | .jump .. | .conditional .. => true
  | .block _ body => !body.isEmpty
  | _ => false

/-- `r` is `e` with the static type `ty`. -/
inductive Retyped (ty : Ty) : Expr → Expr → Prop where
  /-- It has the type already. -/
  | same {e : Expr} : e.ty = ty → Retyped ty e e
  /-- A constant that fits the type. -/
  | constant {e r : Expr} {value : Value} : e.ty ≠ ty → e.form = .constant value → value.isCompatible ty = true →
      r.ty = ty → r.form = .constant value → Retyped ty e r
  /-- A default that is discarded or means the same under the type. -/
  | defaultOf {e r : Expr} : e.ty ≠ ty → e.form = .defaultOf →
      (ty == .void || Value.equalsOption e.ty.defaultValue? ty.defaultValue?) = true →
      r.ty = ty → r.form = .defaultOf → Retyped ty e r
  /-- A throw. -/
  | throw {e r : Expr} {exception : Option Expr} : e.ty ≠ ty → e.form = .throw exception → r.ty = ty →
      r.form = .throw exception → Retyped ty e r
  /-- A jump. -/
  | jump {e r : Expr} {kind : JumpKind} {target : Label} {value : Option Expr} : e.ty ≠ ty →
      e.form = .jump kind target value → r.ty = ty → r.form = .jump kind target value → Retyped ty e r
  /-- A conditional, in both branches; the node that discards the second value is not part of the first branch. -/
  | conditional {e r test a b a' b' : Expr} : e.ty ≠ ty → e.form = .conditional test a b → Retyped ty a a' →
      Retyped ty b b' → (ty = .void → b.ty ≠ ty → b' ∉ a'.form.children) → r.ty = ty →
      r.form = .conditional test a' b' → Retyped ty e r
  /-- A block, in its last expression. -/
  | block {e r last last' : Expr} {locals : List Var} {init : List Expr} : e.ty ≠ ty →
      e.form = .block locals (init ++ [last]) → Retyped ty last last' → r.ty = ty →
      r.form = .block locals (init ++ [last']) → Retyped ty e r
  /-- The value is discarded. -/
  | discarded {e r : Expr} : e.ty ≠ ty → e.form.isFlexible = false → ty = .void → r.ty = ty →
      r.form = .block [] [e] → Retyped ty e r
  /-- The value is converted. -/
  | converted {e r : Expr} : e.ty ≠ ty → e.form.isFlexible = false → ty ≠ .void → r.ty = ty →
      r.form = .convert e → Retyped ty e r

theorem Retyped.ty_eq {ty : Ty} {e r : Expr} (h : Retyped ty e r) : r.ty = ty := by
  cases h <;> assumption

/-- What has the type is kept. -/
theorem Retyped.eq_of_ty {ty : Ty} {e r : Expr} (h : Retyped ty e r) (hty : e.ty = ty) : r = e := by
  cases h with
  | same => rfl
  | constant hne | defaultOf hne | throw hne | jump hne | conditional hne | block hne | discarded hne
  | converted hne => exact absurd hty hne

/-- A throw stays a throw of the same exception. -/
theorem Retyped.throw_form {ty : Ty} {e r : Expr} (h : Retyped ty e r) {exception : Option Expr}
    (he : e.form = .throw exception) : r.form = .throw exception := by
  cases h with
  | same => exact he
  | throw _ hf _ hr => rw [hr, ← hf, he]
  | discarded _ hf | converted _ hf => rw [he] at hf; cases hf
  | constant _ hf | defaultOf _ hf | jump _ hf | conditional _ hf | block _ hf => rw [he] at hf; cases hf

/-- A conditional that comes from another by retyping comes from a conditional. -/
theorem Retyped.of_conditional {ty : Ty} {a a' innerTest innerTrue innerFalse : Expr} (h : Retyped ty a a')
    (hne : a.ty ≠ ty) (ha' : a'.form = .conditional innerTest innerTrue innerFalse) :
    ∃ x y, a.form = .conditional innerTest x y ∧ Retyped ty y innerFalse := by
  cases h with
  | same hty => exact absurd hty hne
  | conditional _ hf _ hb _ _ hr =>
    cases hr.symm.trans ha'
    exact ⟨_, _, hf, hb⟩
  | constant _ _ _ _ hr | defaultOf _ _ _ _ hr | throw _ _ _ hr | jump _ _ _ hr | block _ _ _ _ hr
  | discarded _ _ _ _ hr | converted _ _ _ _ hr => cases hr.symm.trans ha'

/-- A constant or default that comes from an expression by retyping has its form. -/
theorem Retyped.form_of_leaf {ty : Ty} {b b' : Expr} (h : Retyped ty b b')
    (hb' : b'.form = .defaultOf ∨ ∃ v, b'.form = .constant v) : b.form = b'.form := by
  cases h with
  | same => rfl
  | constant _ hf _ _ hr | defaultOf _ hf _ _ hr => rw [hf, hr]
  | throw _ _ _ hr | jump _ _ _ hr | conditional _ _ _ _ _ _ hr | block _ _ _ _ hr | discarded _ _ _ _ hr
  | converted _ _ _ _ hr => simp [hr] at hb'

namespace Expr

theorem retype_eq (e : Expr) (ty : Ty) : e.retype ty =
    if e.ty == ty then pure e
    else match e.form with
      | .constant value => if value.isCompatible ty then liftM (constant value ty) else coerce e ty
      | .defaultOf =>
        if ty == .void || Value.equalsOption e.ty.defaultValue? ty.defaultValue? then liftM (defaultOf ty)
        else coerce e ty
      | .throw exception => liftM (throw exception ty)
      | .jump kind target value => liftM (jump kind target value ty)
      | .conditional test whenTrue whenFalse => do
        let a ← whenTrue.retype ty
        let b ← whenFalse.retype ty
        conditional test a b ty
      | .block locals body =>
        match body.getLast? with
        | some last => do
          let l ← last.retype ty
          block locals (body.dropLast ++ [l]) ty
        | none => coerce e ty
      | _ => coerce e ty := by
  rw [retype, recurse_eq]
  split
  · rfl
  · cases e.form with
    | block locals body =>
      simp only [Form.map, List.getLast?_map]
      cases body.getLast? <;> simp [← List.map_dropLast, Function.comp_def]
    | _ => simp [Form.map, Option.map_map, Function.comp_def]

open Store

variable {st : Store}

/-- `r` exists, is `e` with the type `ty`, and is a new node when a value is discarded. -/
def Retypes (st₀ : Store) (ty : Ty) (e : Expr) (st : Store) (r : Expr) : Prop :=
  r ∈ st ∧ Retyped ty e r ∧ (ty = .void → e.ty ≠ ty → r ∉ st₀)

/-- A new node with the type is what retyping gives, when it is `e` with that type; `st₀` is an earlier store. -/
theorem make_retypes {st₀ : Store} {e : Expr} {ty : Ty} {form : Form Expr} (hst : st₀ ≤ st) (hcl : form.clauses = [])
    (hc : ∀ c ∈ form.children, c ∈ st) (h : ∀ r : Expr, r.ty = ty → r.form = form → Retyped ty e r) :
    attempting.reaches st (liftM (make ty form)) (Retypes st₀ ty e) := by
  refine attempting.ofImp (Fallible.reaches_fresh (make_reaches hc (by simp [hcl]))) ?_
  rintro _ _ r ⟨hr, hnew, hty, hform⟩
  exact ⟨hr, h r hty hform, fun _ _ hold => hnew (mem_of_le hst hold)⟩

theorem coerce_reaches {e : Expr} {ty : Ty} (he : e ∈ st) (hty : e.ty ≠ ty) (hf : e.form.isFlexible = false) :
    attempting.reaches st (coerce e ty) (Retypes st ty e) := by
  have hpart : ∀ c ∈ [e], c ∈ st := List.forall_mem_singleton.2 he
  unfold coerce
  split
  · next h =>
    obtain rfl : ty = .void := by simpa using h
    exact make_retypes le_rfl rfl hpart fun _ hrty hform => .discarded hty hf rfl hrty hform
  · next h =>
    have hv : ty ≠ .void := by simpa using h
    split
    · exact make_retypes le_rfl rfl hpart fun _ hrty hform => .converted hty hf hv hrty hform
    · exact Fallible.reaches_throw

/-- **Retyping**: what it gives is the expression with the type that was asked for. -/
theorem retype_reaches (e : Expr) {st : Store} (ty : Ty) (he : e ∈ st) :
    attempting.reaches st (e.retype ty) (Retypes st ty e) := by
  induction e using inductionOn generalizing st with
  | node e ih =>
    rw [retype_eq]
    split
    · next h =>
      have hty : e.ty = ty := by simpa using h
      exact attempting.ofPure fun _ hk => ⟨mem_of_le hk he, .same hty, fun _ h => absurd hty h⟩
    next h =>
    have hty : e.ty ≠ ty := by simpa using h
    have hchild : ∀ {c}, c ∈ e.form.children → c ∈ st := child he
    split
    · next value hform =>
      split
      · next hv =>
        refine attempting.ofImp (Fallible.reaches_fresh (constant_reaches value ty)) ?_
        rintro _ _ r ⟨hr, hnew, hrty, hr'⟩
        exact ⟨hr, .constant hty hform hv hrty hr', fun h _ => hnew h⟩
      · exact coerce_reaches he hty (by rw [hform]; rfl)
    · next hform =>
      split
      · next hv =>
        exact make_retypes le_rfl rfl (List.forall_mem_nil _) fun _ hrty hr => .defaultOf hty hform hv hrty hr
      · exact coerce_reaches he hty (by rw [hform]; rfl)
    · next exception hform =>
      rw [hform] at hchild
      exact make_retypes le_rfl rfl (fun _ hc => hchild hc) fun _ hrty hr => .throw hty hform hrty hr
    · next kind target value hform =>
      rw [hform] at hchild
      exact make_retypes le_rfl rfl (fun _ hc => hchild hc) fun _ hrty hr => .jump hty hform hrty hr
    · next test whenTrue whenFalse hform =>
      simp only [hform, Form.children] at ih hchild
      refine attempting.ofBind (ih whenTrue (by simp) (hchild (by simp))) ?_
      rintro st₁ hst₁ a ⟨ha, ha', _⟩
      refine attempting.ofBind (ih whenFalse (by simp) (mem_of_le hst₁ (hchild (by simp)))) ?_
      rintro st₂ hst₂ b ⟨hb, hb', hnew⟩
      have hparts : ∀ c ∈ [test, a, b], c ∈ st₂ := by
        simp only [List.mem_cons, List.not_mem_nil, or_false]
        rintro c (rfl | rfl | rfl)
        · exact mem_of_le (hst₁.trans hst₂) (hchild (by simp))
        · exact mem_of_le hst₂ ha
        · exact hb
      have hapart : ty = .void → whenFalse.ty ≠ ty → b ∉ a.form.children :=
        fun hv hne hb => hnew hv hne (child ha hb)
      exact make_retypes (hst₁.trans hst₂) rfl hparts fun _ hrty hr => .conditional hty hform ha' hb' hapart hrty hr
    · next locals body hform =>
      simp only [hform, Form.children] at ih hchild
      split
      · next last hlast =>
        obtain ⟨init, rfl⟩ := List.getLast?_eq_some_iff.1 hlast
        simp only [List.dropLast_concat]
        refine attempting.ofBind (ih last (by simp) (hchild (by simp))) ?_
        rintro st₁ hst₁ l ⟨hl, hl', _⟩
        have hparts : ∀ c ∈ init ++ [l], c ∈ st₁ := by
          simp only [List.mem_append, List.mem_singleton]
          rintro c (hc | rfl)
          · exact mem_of_le hst₁ (hchild (by simp [hc]))
          · exact hl
        exact make_retypes hst₁ rfl hparts fun _ hrty hr => .block hty hform hl' hrty hr
      · next hlast =>
        have hnil : body = [] := List.getLast?_eq_none_iff.1 hlast
        exact coerce_reaches he hty (by rw [hform, hnil]; rfl)
    · next h₁ h₂ h₃ h₄ h₅ h₆ =>
      refine coerce_reaches he hty ?_
      cases hform : e.form <;> simp_all [Form.isFlexible]

end Expr

end TypedTree
