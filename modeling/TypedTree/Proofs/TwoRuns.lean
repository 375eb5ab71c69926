import TypedTree.Proofs.Runs

/-!
# Two runs side by side

Two runs proceed alike when both give a result or both are halted for the same reason, in states that belong together.
As for single runs, which states belong together depends on a world that moves on while the runs do (`Run.Alike`). The results
may be of different types, since two hosts may have different callables.

Two computations with the same results are a computation of a monad again (`Twin`), so that mapping a form twice is settled
by the rule for mapping a form.
-/

namespace TypedTree

/-! ### Computations in pairs -/

/-- Two computations side by side. -/
@[ext] structure Twin (m m' : Type → Type) (α : Type) where
  /-- The one. -/
  left : m α
  /-- The other. -/
  right : m' α

section

variable {m m' : Type → Type} [Monad m] [Monad m']

instance : Monad (Twin m m') where
  pure a := ⟨pure a, pure a⟩
  bind x f := ⟨x.left >>= fun a => (f a).left, x.right >>= fun a => (f a).right⟩

instance [LawfulMonad m] [LawfulMonad m'] : LawfulMonad (Twin m m') := LawfulMonad.mk' _
  (fun x => Twin.ext (bind_pure x.left) (bind_pure x.right))
  (fun a f => Twin.ext (pure_bind a fun b => (f b).left) (pure_bind a fun b => (f b).right))
  (fun x f g => Twin.ext (bind_assoc x.left (fun a => (f a).left) fun b => (g b).left)
    (bind_assoc x.right (fun a => (f a).right) fun b => (g b).right))

/-- To map a form in pairs is to map it twice. -/
theorem Form.mapM_twin [LawfulMonad m] [LawfulMonad m'] {α β : Type} (f : α → m β) (f' : α → m' β) (form : Form α) :
    (form.mapM fun a => (⟨f a, f' a⟩ : Twin m m' β)) = ⟨form.mapM f, form.mapM f'⟩ :=
  Twin.ext (Form.mapM_hom Twin.left (fun _ => rfl) (fun _ _ => rfl) _ form)
    (Form.mapM_hom Twin.right (fun _ => rfl) (fun _ _ => rfl) _ form)

end

/-! ### Runs that proceed alike -/

namespace Run

variable {σ σ' α α' β β' : Type} {K : Type} [Preorder K] {At : K → Progress σ → Progress σ' → Prop}

/-- Two runs ended alike, in states that belong together in a world not before `k`. -/
inductive Ended (At : K → Progress σ → Progress σ' → Prop) (k : K) (P : K → α → α' → Prop) :
    EStateM.Result Halt (Progress σ) α → EStateM.Result Halt (Progress σ') α' → Prop where
  /-- Both gave a result. -/
  | result {k' : K} {a : α} {a' : α'} {s : Progress σ} {s' : Progress σ'} : k ≤ k' → At k' s s' → P k' a a' →
      Ended At k P (.ok a s) (.ok a' s')
  /-- Both were halted, for the same reason. -/
  | halted {k' : K} {halt : Halt} {s : Progress σ} {s' : Progress σ'} : k ≤ k' → At k' s s' →
      Ended At k P (.error halt s) (.error halt s')

/-- From the world `k` on, the runs of `x` and `x'` proceed alike and give results as `P` says. -/
def Alike (At : K → Progress σ → Progress σ' → Prop) (k : K) (x : Run σ α) (x' : Run σ' α') (P : K → α → α' → Prop) :
    Prop :=
  ∀ k₁, k ≤ k₁ → ∀ s s', At k₁ s s' → Ended At k₁ P (x s) (x' s')

variable {k : K} {x : Run σ α} {x' : Run σ' α'} {P Q : K → α → α' → Prop}

theorem Alike.imp (h : Alike At k x x' P) (hPQ : ∀ k', k ≤ k' → ∀ a a', P k' a a' → Q k' a a') :
    Alike At k x x' Q := by
  intro k₁ hk s s' hs
  have h := h k₁ hk s s' hs
  generalize x s = r, x' s' = r' at h ⊢
  cases h with
  | result hk₂ hs₂ hP => exact .result hk₂ hs₂ (hPQ _ (hk.trans hk₂) _ _ hP)
  | halted hk₂ hs₂ => exact .halted hk₂ hs₂

theorem alike_pure {a : α} {a' : α'} (h : ∀ k', k ≤ k' → P k' a a') : Alike At k (pure a) (pure a') P :=
  fun k₁ hk _ _ hs => .result le_rfl hs (h k₁ hk)

theorem alike_throw {halt : Halt} : Alike At k (throw halt) (throw halt) P := fun _ _ _ _ hs => .halted le_rfl hs

theorem alike_bind {f : α → Run σ β} {f' : α' → Run σ' β'} {R : K → β → β' → Prop} (hx : Alike At k x x' P)
    (hf : ∀ k', k ≤ k' → ∀ a a', P k' a a' → Alike At k' (f a) (f' a') R) : Alike At k (x >>= f) (x' >>= f') R := by
  intro k₁ hk s s' hs
  have hx := hx k₁ hk s s' hs
  show Ended At k₁ R (EStateM.bind x f s) (EStateM.bind x' f' s')
  unfold EStateM.bind
  generalize x s = r, x' s' = r' at hx ⊢
  cases hx with
  | @result k₂ a a' t t' hk₂ ht hP =>
    have hf := hf k₂ (hk.trans hk₂) a a' hP k₂ le_rfl t t' ht
    show Ended At k₁ R (f a t) (f' a' t')
    generalize f a t = r, f' a' t' = r' at hf ⊢
    cases hf with
    | result hk₃ hs₃ hR => exact .result (hk₂.trans hk₃) hs₃ hR
    | halted hk₃ hs₃ => exact .halted (hk₂.trans hk₃) hs₃
  | halted hk₂ hs₂ => exact .halted hk₂ hs₂

/-- The rules for runs that proceed alike and give equal results. -/
def alikeLogic (At : K → Progress σ → Progress σ' → Prop) : Logic (Twin (Run σ) (Run σ')) K where
  reaches k x P := Alike At k x.left x.right fun k' a a' => a = a' ∧ P k' a
  ofPure h := alike_pure fun k' hk => ⟨rfl, h k' hk⟩
  ofBind hx hf := alike_bind hx fun k' hk a a' ⟨ha, hP⟩ => by subst ha; exact hf k' hk a hP
  ofImp hx h := hx.imp fun k' hk a _ ⟨ha, hP⟩ => ⟨ha, h k' hk a hP⟩

end Run

end TypedTree
