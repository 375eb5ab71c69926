import Mathlib.Order.Basic
import TypedTree.Optimize.Run
import TypedTree.Proofs.Forms

/-!
# What computations reach

Computations that draw identities, act on a host or may be halted are reasoned about by what they reach. The facts that
matter stay true while a computation goes on: a node, once made, exists for good. So they are facts about a world, the
worlds are ordered, and a computation moves from a world to a later one.

* `Logic`: what it takes to reason so about a monad, namely a rule for results and one for sequences. With these two,
  mapping the sub-expressions of a form is settled once (`Form.mapM_reaches`).
* `State.logic`, `Fallible.logic` and `Run.logic`: the rules for computations that make nodes, for those that may end in
  a fault, and for runs of an optimizer.
* `Run.Ends`: what a run of an optimizer ends in, results and halts alike.
-/

namespace TypedTree

/-! ### Rules for a monad -/

/-- The rules for reasoning about a monad over worlds `K`: from the world `k` on, a computation reaches `P`. -/
structure Logic (m : Type → Type) [Monad m] (K : Type) [Preorder K] where
  /-- From the world on, the computation moves to a later world in which the result is as said. -/
  reaches {β : Type} : K → m β → (K → β → Prop) → Prop
  /-- A result moves nowhere. -/
  ofPure {β : Type} {k : K} {b : β} {P : K → β → Prop} : (∀ k', k ≤ k' → P k' b) → reaches k (pure b) P
  /-- A sequence moves as its second part does from where the first one arrives. -/
  ofBind {β γ : Type} {k : K} {x : m β} {f : β → m γ} {P : K → β → Prop} {Q : K → γ → Prop} :
    reaches k x P → (∀ k', k ≤ k' → ∀ b, P k' b → reaches k' (f b) Q) → reaches k (x >>= f) Q
  /-- What is reached may be weakened. -/
  ofImp {β : Type} {k : K} {x : m β} {P Q : K → β → Prop} :
    reaches k x P → (∀ k', k ≤ k' → ∀ b, P k' b → Q k' b) → reaches k x Q

/-- The only world there is, for what does not depend on how far a computation has come. -/
inductive Moment where
  | now

instance : Preorder Moment where
  le _ _ := True
  le_refl _ := trivial
  le_trans _ _ _ _ _ := trivial

/-- What holds of two things in a world holds of them in every later one. -/
def Lasting {K : Type} [Preorder K] {α β : Type} (R : K → α → β → Prop) : Prop :=
  ∀ ⦃k k' : K⦄, k ≤ k' → ∀ ⦃a : α⦄ ⦃b : β⦄, R k a b → R k' a b

section Lasting

variable {K : Type} [Preorder K] {α β : Type} {R : K → α → β → Prop}

theorem Lasting.option (hR : Lasting R) : Lasting fun k => Option.Rel (R k) :=
  fun _ _ hk _ _ h => optionRel_imp h fun _ _ _ => @hR _ _ hk _ _

theorem Lasting.list (hR : Lasting R) : Lasting fun k => List.Forall₂ (R k) :=
  fun _ _ hk _ _ h => h.imp fun _ _ => @hR _ _ hk _ _

theorem Lasting.case (hR : Lasting R) : Lasting fun k => Case.Rel (R k) :=
  fun _ _ hk _ _ h => h.imp fun _ _ _ => @hR _ _ hk _ _

theorem Lasting.clause (hR : Lasting R) : Lasting fun k => Clause.Rel (R k) :=
  fun _ _ hk _ _ h => h.imp fun _ _ _ => @hR _ _ hk _ _

end Lasting

namespace Logic

variable {m : Type → Type} [Monad m] {K : Type} [Preorder K] (L : Logic m K) {α β : Type}
  {R : K → α → β → Prop} {f : α → m β}

/-- What `f` does to the sub-expressions of something with parts `as`, from the world `k` on. -/
def Maps (k : K) (f : α → m β) (R : K → α → β → Prop) (as : List α) : Prop :=
  ∀ a ∈ as, ∀ k', k ≤ k' → L.reaches k' (f a) (R · a)

theorem Maps.later {k k' : K} {as bs : List α} (h : L.Maps k f R as) (hk : k ≤ k') (hs : ∀ a ∈ bs, a ∈ as) :
    L.Maps k' f R bs :=
  fun a ha k'' hk' => h a (hs a ha) k'' (hk.trans hk')

variable [LawfulMonad m]

theorem mapM_option (hR : Lasting R) {k : K} {o : Option α} (h : L.Maps k f R o.toList) :
    L.reaches k (o.mapM f) fun k' o' => Option.Rel (R k') o o' := by
  cases o with
  | none => exact L.ofPure fun _ _ => .none
  | some a =>
    rw [Option.mapM_some, ← bind_pure_comp]
    exact L.ofBind (h a (by simp) k le_rfl) fun k' _ b hb => L.ofPure fun _ hk => .some (hR hk hb)

theorem mapM_list (hR : Lasting R) {k : K} {as : List α} (h : L.Maps k f R as) :
    L.reaches k (as.mapM f) fun k' bs => List.Forall₂ (R k') as bs := by
  induction as generalizing k with
  | nil => rw [List.mapM_nil]; exact L.ofPure fun _ _ => .nil
  | cons a as ih =>
    rw [List.mapM_cons]
    refine L.ofBind (h a List.mem_cons_self k le_rfl) fun k₁ hk₁ b hb => ?_
    refine L.ofBind (ih (h.later L hk₁ fun _ => List.mem_cons_of_mem _)) fun k₂ hk₂ bs hbs => ?_
    exact L.ofPure fun k₃ hk₃ => .cons (hR (hk₂.trans hk₃) hb) (hR.list hk₃ hbs)

theorem mapM_case (hR : Lasting R) {k : K} {c : Case α} (h : L.Maps k f R c.children) :
    L.reaches k (c.mapM f) fun k' d => Case.Rel (R k') c d := by
  refine L.ofBind (L.mapM_list hR (h.later L le_rfl fun _ => List.mem_append_left _)) fun k₁ hk₁ ts hts => ?_
  refine L.ofBind (h c.body (by simp [Case.children]) k₁ hk₁) fun k₂ hk₂ b hb => ?_
  exact L.ofPure fun k₃ hk₃ => ⟨hR.list (hk₂.trans hk₃) hts, hR hk₃ hb⟩

theorem mapM_clause (hR : Lasting R) {k : K} {c : Clause α} (h : L.Maps k f R c.children) :
    L.reaches k (c.mapM f) fun k' d => Clause.Rel (R k') c d := by
  refine L.ofBind (L.mapM_option hR (h.later L le_rfl fun _ => List.mem_append_left _)) fun k₁ hk₁ o ho => ?_
  refine L.ofBind (h c.body (by simp [Clause.children]) k₁ hk₁) fun k₂ hk₂ b hb => ?_
  exact L.ofPure fun k₃ hk₃ => ⟨rfl, rfl, hR.option (hk₂.trans hk₃) ho, hR hk₃ hb⟩

/-- Something made of parts is mapped part by part. -/
theorem mapM_parts {ι κ : Type} {S : K → ι → κ → Prop} {g : ι → m κ} {children : ι → List α}
    (hS : Lasting S) (hg : ∀ {k : K} {i : ι}, L.Maps k f R (children i) → L.reaches k (g i) (S · i)) {k : K} {is : List ι}
    (h : L.Maps k f R (is.flatMap children)) :
    L.reaches k (is.mapM g) fun k' js => List.Forall₂ (S k') is js :=
  L.mapM_list hS fun i hi _ hk => hg (h.later L hk fun _ ha => List.mem_flatMap.2 ⟨i, hi, ha⟩)

end Logic

/-- **Mapping a form**: when `f` relates every sub-expression to its result, the form is related to the mapped one. -/
theorem Form.mapM_reaches {m : Type → Type} [Monad m] [LawfulMonad m] {K : Type} [Preorder K] (L : Logic m K)
    {α β : Type} {R : K → α → β → Prop} {f : α → m β}
    (hR : Lasting R) {k : K} {form : Form α}
    (h : L.Maps k f R form.children) : L.reaches k (form.mapM f) fun k' form' => Form.Rel (R k') form form' := by
  cases form with
  | constant v => exact L.ofPure fun _ _ => .constant v
  | var x => exact L.ofPure fun _ _ => .var x
  | defaultOf => exact L.ofPure fun _ _ => .defaultOf
  | convert a =>
    refine L.ofBind (h a (by simp [children]) k le_rfl) fun k₁ hk₁ b hb => ?_
    exact L.ofPure fun _ hk => .convert (hR hk hb)
  | call receiver method args =>
    refine L.ofBind (L.mapM_option hR (h.later L le_rfl fun _ => List.mem_append_left _)) fun k₁ hk₁ o ho => ?_
    refine L.ofBind (L.mapM_list hR (h.later L hk₁ fun _ => List.mem_append_right _)) fun k₂ hk₂ bs hbs => ?_
    exact L.ofPure fun _ hk =>
      .call (hR.option (hk₂.trans hk) ho) (hR.list hk hbs)
  | access receiver member =>
    refine L.ofBind (L.mapM_option hR h) fun k₁ hk₁ o ho => ?_
    exact L.ofPure fun _ hk => .access (hR.option hk ho)
  | new constructor args =>
    exact L.ofBind (L.mapM_list hR h) fun k₁ hk₁ bs hbs => L.ofPure fun _ hk => .new (hR.list hk hbs)
  | newArray element source items =>
    exact L.ofBind (L.mapM_list hR h) fun k₁ hk₁ bs hbs =>
      L.ofPure fun _ hk => .newArray (hR.list hk hbs)
  | index receiver indexer args assigned =>
    refine L.ofBind (h receiver List.mem_cons_self k le_rfl) fun k₁ hk₁ b hb => ?_
    refine L.ofBind (L.mapM_list hR (h.later L hk₁ fun _ => List.mem_cons_of_mem _)) fun k₂ hk₂ bs hbs => ?_
    exact L.ofPure fun _ hk => .index (hR (hk₂.trans hk) hb) (hR.list hk hbs)
  | invoke callee args =>
    refine L.ofBind (h callee List.mem_cons_self k le_rfl) fun k₁ hk₁ b hb => ?_
    refine L.ofBind (L.mapM_list hR (h.later L hk₁ fun _ => List.mem_cons_of_mem _)) fun k₂ hk₂ bs hbs => ?_
    exact L.ofPure fun _ hk => .invoke (hR (hk₂.trans hk) hb) (hR.list hk hbs)
  | lambda params body =>
    refine L.ofBind (h body (by simp [children]) k le_rfl) fun k₁ hk₁ b hb => ?_
    exact L.ofPure fun _ hk => .lambda (hR hk hb)
  | conditional test whenTrue whenFalse =>
    refine L.ofBind (h test (by simp [children]) k le_rfl) fun k₁ hk₁ b hb => ?_
    refine L.ofBind (h whenTrue (by simp [children]) k₁ hk₁) fun k₂ hk₂ t ht => ?_
    refine L.ofBind (h whenFalse (by simp [children]) k₂ (hk₁.trans hk₂)) fun k₃ hk₃ f hf => ?_
    exact L.ofPure fun _ hk => .conditional (hR (hk₂.trans (hk₃.trans hk)) hb) (hR (hk₃.trans hk) ht) (hR hk hf)
  | logical op left right =>
    refine L.ofBind (h left (by simp [children]) k le_rfl) fun k₁ hk₁ b hb => ?_
    refine L.ofBind (h right (by simp [children]) k₁ hk₁) fun k₂ hk₂ c hc => ?_
    exact L.ofPure fun _ hk => .logical (hR (hk₂.trans hk) hb) (hR hk hc)
  | switch value comparison cases fallback =>
    refine L.ofBind (h value List.mem_cons_self k le_rfl) fun k₁ hk₁ b hb => ?_
    refine L.ofBind (L.mapM_parts hR.case (L.mapM_case hR)
      (h.later L hk₁ fun _ ha => List.mem_cons_of_mem _ (List.mem_append_left _ ha))) fun k₂ hk₂ cs hcs => ?_
    refine L.ofBind (L.mapM_option hR (h.later L (hk₁.trans hk₂) fun _ ha =>
      List.mem_cons_of_mem _ (List.mem_append_right _ ha))) fun k₃ hk₃ o ho => ?_
    exact L.ofPure fun _ hk => .switch (hR (hk₂.trans (hk₃.trans hk)) hb)
      (hR.case.list (hk₃.trans hk) hcs) (hR.option hk ho)
  | typeTest operand target mode =>
    refine L.ofBind (h operand (by simp [children]) k le_rfl) fun k₁ hk₁ b hb => ?_
    exact L.ofPure fun _ hk => .typeTest (hR hk hb)
  | throw exception =>
    refine L.ofBind (L.mapM_option hR h) fun k₁ hk₁ o ho => ?_
    exact L.ofPure fun _ hk => .throw (hR.option hk ho)
  | block locals body =>
    exact L.ofBind (L.mapM_list hR h) fun k₁ hk₁ bs hbs => L.ofPure fun _ hk => .block (hR.list hk hbs)
  | tryCatch body clauses cleanup onFault =>
    refine L.ofBind (h body (by simp [children]) k le_rfl) fun k₁ hk₁ b hb => ?_
    refine L.ofBind (L.mapM_parts hR.clause (L.mapM_clause hR)
      (h.later L hk₁ fun _ ha => by simp only [children, List.mem_cons, List.mem_append]; grind))
      fun k₂ hk₂ cs hcs => ?_
    refine L.ofBind (L.mapM_option hR (h.later L (hk₁.trans hk₂) fun _ ha => by simp [children, ha]))
      fun k₃ hk₃ o ho => ?_
    refine L.ofBind (L.mapM_option hR (h.later L (hk₁.trans (hk₂.trans hk₃)) fun _ ha => by simp [children, ha]))
      fun k₄ hk₄ p hp => ?_
    exact L.ofPure fun _ hk => .tryCatch (hR (hk₂.trans (hk₃.trans (hk₄.trans hk))) hb)
      (hR.clause.list (hk₃.trans (hk₄.trans hk)) hcs)
      (hR.option (hk₄.trans hk) ho) (hR.option hk hp)
  | jump kind target value =>
    refine L.ofBind (L.mapM_option hR h) fun k₁ hk₁ o ho => ?_
    exact L.ofPure fun _ hk => .jump (hR.option hk ho)

/-! ### Computations that make nodes -/

/-- The rules for computations with a state; `At` says which states belong to a world. -/
def State.logic {S K : Type} [Preorder K] (At : K → S → Prop) : Logic (StateM S) K where
  reaches k x P := ∀ k₁, k ≤ k₁ → ∀ s, At k₁ s → ∃ k₂, k₁ ≤ k₂ ∧ At k₂ (x s).2 ∧ P k₂ (x s).1
  ofPure h k₁ hk s hs := ⟨k₁, le_rfl, hs, h k₁ hk⟩
  ofBind hx hf k₁ hk s hs := by
    obtain ⟨k₂, hk₂, hs₂, hP⟩ := hx k₁ hk s hs
    obtain ⟨k₃, hk₃, hs₃, hQ⟩ := hf k₂ (hk.trans hk₂) _ hP k₂ le_rfl _ hs₂
    exact ⟨k₃, hk₂.trans hk₃, hs₃, hQ⟩
  ofImp hx h k₁ hk s hs := by
    obtain ⟨k₂, hk₂, hs₂, hP⟩ := hx k₁ hk s hs
    exact ⟨k₂, hk₂, hs₂, h k₂ (hk.trans hk₂) _ hP⟩

/-- The rules for computations that make nodes and may end in a fault, of which nothing is said then. -/
def Fallible.logic {K : Type} [Preorder K] (At : K → Supply .node → Prop) : Logic Fallible K where
  reaches k x P :=
    ∀ k₁, k ≤ k₁ → ∀ s, At k₁ s → ∀ b s', x s = .ok (b, s') → ∃ k₂, k₁ ≤ k₂ ∧ At k₂ s' ∧ P k₂ b
  ofPure h k₁ hk s hs b s' hx := by
    cases hx
    exact ⟨k₁, le_rfl, hs, h k₁ hk⟩
  ofBind {_ _ _ x f _ _} hx hf k₁ hk s hs c s'' hxf := by
    cases hxs : x s with
    | error fault => simp [bind, StateT.bind, hxs, Except.bind] at hxf
    | ok p =>
      obtain ⟨b, s'⟩ := p
      simp only [bind, StateT.bind, hxs, Except.bind] at hxf
      obtain ⟨k₂, hk₂, hs₂, hP⟩ := hx k₁ hk s hs b s' hxs
      obtain ⟨k₃, hk₃, hs₃, hQ⟩ := hf k₂ (hk.trans hk₂) b hP k₂ le_rfl s' hs₂ c s'' hxf
      exact ⟨k₃, hk₂.trans hk₃, hs₃, hQ⟩
  ofImp hx h k₁ hk s hs b s' hxs := by
    obtain ⟨k₂, hk₂, hs₂, hP⟩ := hx k₁ hk s hs b s' hxs
    exact ⟨k₂, hk₂, hs₂, h k₂ (hk.trans hk₂) b hP⟩

section Lifting

variable {K : Type} [Preorder K] {At : K → Supply .node → Prop} {β : Type} {k : K} {P : K → β → Prop}

theorem Fallible.reaches_fresh {x : Fresh .node β} (h : (State.logic At).reaches k x P) :
    (Fallible.logic At).reaches k (liftM x) P := by
  intro k₁ hk s hs b s' hx
  obtain ⟨k₂, hk₂, hs₂, hP⟩ := h k₁ hk s hs
  have hxs : x s = (b, s') := Except.ok.inj hx
  rw [hxs] at hs₂ hP
  exact ⟨k₂, hk₂, hs₂, hP⟩

theorem Fallible.reaches_throw {fault : Fault} : (Fallible.logic At).reaches k (throwThe Fault fault) P := by
  intro k₁ hk s hs b s' hx
  cases hx

theorem Fallible.reaches_toOption {x : Fallible β} (h : (Fallible.logic At).reaches k x P) :
    (State.logic At).reaches k x.toOption fun k' o => ∀ b ∈ o, P k' b := by
  intro k₁ hk s hs
  unfold Fallible.toOption
  cases hx : x s with
  | error fault => exact ⟨k₁, le_rfl, hs, by simp⟩
  | ok p =>
    obtain ⟨k₂, hk₂, hs₂, hP⟩ := h k₁ hk s hs p.1 p.2 hx
    exact ⟨k₂, hk₂, hs₂, by rintro b ⟨⟩; exact hP⟩

/-- Computations that also make references move the nodes as far as they make nodes. -/
theorem Build.reaches_fresh {x : Fresh .node β} (h : (State.logic At).reaches k x P) :
    (State.logic fun k (s : Supplies) => At k s.nodes).reaches k (liftM x) P :=
  fun k₁ hk s hs => h k₁ hk s.nodes hs

theorem Build.reaches_reference {x : Fresh .reference β} {Q : β → Prop} (h : ∀ s, Q (x s).1) :
    (State.logic fun k (s : Supplies) => At k s.nodes).reaches k (liftM x) fun _ b => Q b :=
  fun k₁ _ s hs => ⟨k₁, le_rfl, hs, h s.references⟩

end Lifting

/-! ### Runs of an optimizer -/

theorem Tally.total_record {k : Reduction} (hk : k ≠ .refused) (t : Tally) : (t.record k).total = t.total + 1 := by
  cases k <;> simp [record, total] at hk ⊢ <;> omega

namespace Run

variable {σ α β : Type}

/-- The run of `x` from `s` gives a result as `Q` says or is halted as `E` says. -/
inductive Ends (x : Run σ α) (s : Progress σ) (Q : α → Progress σ → Prop) (E : Halt → Prop) : Prop where
  /-- It gives a result. -/
  | result {a : α} {s' : Progress σ} : x s = .ok a s' → Q a s' → x.Ends s Q E
  /-- It is halted. -/
  | halted {halt : Halt} {s' : Progress σ} : x s = .error halt s' → E halt → x.Ends s Q E

variable {x : Run σ α} {s s' : Progress σ} {P Q : α → Progress σ → Prop} {E : Halt → Prop}

theorem Ends.of_eq (h : x.Ends s Q E) {a : α} (hx : x s = .ok a s') : Q a s' := by
  cases h with
  | result h hQ =>
    obtain ⟨rfl, rfl⟩ : a = _ ∧ s' = _ := by simpa using hx.symm.trans h
    exact hQ
  | halted h => cases hx.symm.trans h

theorem Ends.imp (h : x.Ends s P E) (hQ : ∀ a s', P a s' → Q a s') : x.Ends s Q E := by
  cases h with
  | result hx hP => exact .result hx (hQ _ _ hP)
  | halted hx hE => exact .halted hx hE

/-- What is known of one run in two ways is known together. -/
theorem Ends.both {E' : Halt → Prop} (h : x.Ends s P E) (h' : x.Ends s Q E') :
    x.Ends s (fun a s' => P a s' ∧ Q a s') fun halt => E halt ∧ E' halt := by
  cases h with
  | result hx hP => exact .result hx ⟨hP, h'.of_eq hx⟩
  | halted hx hE =>
    cases h' with
    | result hx' => cases hx.symm.trans hx'
    | halted hx' hE' =>
      obtain ⟨rfl, rfl⟩ := EStateM.Result.error.inj (hx.symm.trans hx')
      exact .halted hx ⟨hE, hE'⟩

theorem Ends.imp_halt {E' : Halt → Prop} (h : x.Ends s Q E) (hE : ∀ halt, E halt → E' halt) : x.Ends s Q E' := by
  cases h with
  | result hx hQ => exact .result hx hQ
  | halted hx hEx => exact .halted hx (hE _ hEx)

theorem ends_pure {a : α} (h : Q a s) : (pure a : Run σ α).Ends s Q E := .result rfl h

theorem ends_throw {halt : Halt} (h : E halt) : (throw halt : Run σ α).Ends s Q E := .halted rfl h

theorem ends_bind {f : α → Run σ β} {R : β → Progress σ → Prop} (hx : x.Ends s P E)
    (hf : ∀ a s', P a s' → (f a).Ends s' R E) : (x >>= f).Ends s R E := by
  cases hx with
  | result hx hP =>
    cases hf _ _ hP with
    | result hy hR => exact .result (by simp only [bind, EStateM.bind, hx, hy]) hR
    | halted hy hE => exact .halted (by simp only [bind, EStateM.bind, hx, hy]; rfl) hE
  | halted hx hE => exact .halted (by simp only [bind, EStateM.bind, hx]; rfl) hE

theorem ends_record {r : Reduction} {Q : Unit → Progress σ → Prop}
    (h : Q () { s with tally := s.tally.record r }) : (Optimizer.record r : Run σ Unit).Ends s Q E := .result rfl h

theorem ends_fresh {y : Fresh .node α} (h : Q (y s.nodes).1 { s with nodes := (y s.nodes).2 }) :
    (liftM y : Run σ α).Ends s Q E := .result rfl h

theorem ends_effect {y : Effect σ α} (h : Q (y s.world).1 { s with world := (y s.world).2 }) :
    (liftM y : Run σ α).Ends s Q E := .result rfl h

theorem ends_build {y : Build α} (h : Q (y ⟨s.nodes, s.world.references⟩).1
      { s with
        nodes := (y ⟨s.nodes, s.world.references⟩).2.nodes
        world := { s.world with references := (y ⟨s.nodes, s.world.references⟩).2.references } }) :
    (liftM y : Run σ α).Ends s Q E := .result rfl h

theorem ends_fallible {y : Fallible α} (h : ∀ a nodes, y s.nodes = .ok (a, nodes) → Q a { s with nodes := nodes })
    (hE : ∀ fault, y s.nodes = .error fault → E (.fault fault)) : (liftM y : Run σ α).Ends s Q E := by
  cases hy : y s.nodes with
  | ok p => exact .result (by simp only [liftM, monadLift, MonadLift.monadLift, hy]) (h p.1 p.2 hy)
  | error fault => exact .halted (by simp only [liftM, monadLift, MonadLift.monadLift, hy]; rfl) (hE fault hy)

/-- The rules for runs; `At` says which states belong to a world, and `E` how a run may be halted. -/
def logic {K : Type} [Preorder K] (At : K → Progress σ → Prop) (E : Halt → Prop) : Logic (Run σ) K where
  reaches k x P :=
    ∀ k₁, k ≤ k₁ → ∀ s, At k₁ s → x.Ends s (fun b s' => ∃ k₂, k₁ ≤ k₂ ∧ At k₂ s' ∧ P k₂ b) E
  ofPure h k₁ hk s hs := ends_pure ⟨k₁, le_rfl, hs, h k₁ hk⟩
  ofBind hx hf k₁ hk s hs := by
    refine ends_bind (hx k₁ hk s hs) fun b s₂ ⟨k₂, hk₂, hs₂, hP⟩ => ?_
    refine (hf k₂ (hk.trans hk₂) b hP k₂ le_rfl s₂ hs₂).imp fun c s₃ ⟨k₃, hk₃, hs₃, hQ⟩ => ?_
    exact ⟨k₃, hk₂.trans hk₃, hs₃, hQ⟩
  ofImp hx h k₁ hk s hs :=
    (hx k₁ hk s hs).imp fun b _ ⟨k₂, hk₂, hs₂, hP⟩ => ⟨k₂, hk₂, hs₂, h k₂ (hk.trans hk₂) b hP⟩

section Lifting

variable {K : Type} [Preorder K] {At : K → Supply .node → Prop} {k : K} {P : K → α → Prop} {E : Halt → Prop}

/-- The rules for runs, when only the nodes of a state belong to a world. -/
abbrev nodeLogic (At : K → Supply .node → Prop) (E : Halt → Prop) : Logic (Run σ) K :=
  logic (fun k s => At k s.nodes) E

theorem reaches_fresh {x : Fresh .node α} (h : (State.logic At).reaches k x P) :
    (nodeLogic (σ := σ) At E).reaches k (liftM x) P :=
  fun k₁ hk s hs => ends_fresh (h k₁ hk s.nodes hs)

theorem reaches_fresh_run {x : Fresh .node α} (h : (State.logic At).reaches k x P) :
    (nodeLogic (σ := σ) At E).reaches k (liftM x) fun k' a => P k' a ∧ ∃ s, (x s).1 = a := by
  intro k₁ hk s hs
  obtain ⟨k₂, hk₂, hs₂, hP⟩ := h k₁ hk s.nodes hs
  exact ends_fresh ⟨k₂, hk₂, hs₂, hP, s.nodes, rfl⟩

theorem reaches_build {x : Build α} (h : (State.logic fun k (s : Supplies) => At k s.nodes).reaches k x P) :
    (nodeLogic (σ := σ) At E).reaches k (liftM x) P :=
  fun k₁ hk s hs => ends_build (h k₁ hk ⟨s.nodes, s.world.references⟩ hs)

theorem reaches_fallible (hE : ∀ fault, E (.fault fault)) {x : Fallible α}
    (h : (Fallible.logic At).reaches k x P) : (nodeLogic (σ := σ) At E).reaches k (liftM x) P :=
  fun k₁ hk s hs => ends_fallible (fun a nodes hx => h k₁ hk s.nodes hs a nodes hx) fun fault _ => hE fault

theorem reaches_effect (x : Effect σ α) :
    (nodeLogic (σ := σ) At E).reaches k (liftM x) fun _ a => ∃ w, (x w).1 = a :=
  fun k₁ _ s hs => ends_effect ⟨k₁, le_rfl, hs, s.world, rfl⟩

theorem reaches_record {r : Reduction} : (nodeLogic (σ := σ) At E).reaches k (Optimizer.record r) fun _ _ => True :=
  fun k₁ _ _ hs => ends_record ⟨k₁, le_rfl, hs, trivial⟩

theorem reaches_throw {halt : Halt} (h : E halt) : (nodeLogic (σ := σ) At E).reaches k (throw halt) P :=
  fun _ _ _ _ => ends_throw h

end Lifting

/-- What a run reaches and how it is halted may be proved one by one. -/
theorem reaches_of_ends {K : Type} [Preorder K] {At : K → Progress σ → Prop} {k : K} {P : K → α → Prop} {E' : Halt → Prop}
    (h : (logic At E').reaches k x P) (hE : ∀ k₁, k ≤ k₁ → ∀ s, At k₁ s → x.Ends s (fun _ _ => True) E) :
    (logic At E).reaches k x P := by
  intro k₁ hk s hs
  have hboth := (h k₁ hk s hs).both (hE k₁ hk s hs)
  exact (hboth.imp fun _ _ h => h.1).imp_halt fun _ h => h.2

/-! ### How runs are halted -/

/-- The rules for runs of which it is only said how they may be halted, from all states. -/
abbrev halting (E : Halt → Prop) : Logic (Run σ) Moment := logic (fun _ _ => True) E

/-- From every state, the run gives a result or is halted as `E` says. -/
abbrev HaltsAs (x : Run σ α) (E : Halt → Prop) : Prop := (halting E).reaches .now x fun _ _ => True

section Halting

variable {f : α → Run σ β}

theorem HaltsAs.ends (h : x.HaltsAs E) (s : Progress σ) : x.Ends s (fun _ _ => True) E :=
  (h .now trivial s trivial).imp fun _ _ _ => trivial

theorem haltsAs_pure {a : α} : HaltsAs (pure a : Run σ α) E := (halting E).ofPure fun _ _ => trivial

theorem haltsAs_bind (hx : x.HaltsAs E) (hf : ∀ a, (f a).HaltsAs E) : (x >>= f).HaltsAs E :=
  (halting E).ofBind hx fun _ _ a _ => hf a

theorem haltsAs_ite {c : Prop} [Decidable c] {y : Run σ α} (hx : x.HaltsAs E) (hy : y.HaltsAs E) :
    HaltsAs (if c then x else y) E := by
  split
  · exact hx
  · exact hy

theorem haltsAs_mapM {f : β → Run σ α} {bs : List β} (h : ∀ b ∈ bs, (f b).HaltsAs E) : (bs.mapM f).HaltsAs E :=
  (halting E).ofImp ((halting E).mapM_list (R := fun _ _ _ => True) (fun _ _ _ _ _ h => h) fun b hb _ _ => h b hb)
    fun _ _ _ _ => trivial

theorem haltsAs_mapM_form {f : β → Run σ α} {form : Form β} (h : ∀ b ∈ form.children, (f b).HaltsAs E) :
    (form.mapM f).HaltsAs E :=
  (halting E).ofImp (Form.mapM_reaches (halting E) (R := fun _ _ _ => True) (fun _ _ _ _ _ h => h) fun b hb _ _ => h b hb)
    fun _ _ _ _ => trivial

theorem haltsAs_throw {halt : Halt} (h : E halt) : HaltsAs (throw halt : Run σ α) E := fun _ _ _ _ => ends_throw h

theorem haltsAs_record {r : Reduction} : HaltsAs (Optimizer.record r : Run σ Unit) E :=
  fun _ _ _ _ => ends_record ⟨.now, trivial, trivial, trivial⟩

theorem haltsAs_recorded {r : Reduction} {a : α} : HaltsAs (do Optimizer.record r; return a : Run σ α) E :=
  haltsAs_bind haltsAs_record fun _ => haltsAs_pure

theorem halting_effect (y : Effect σ α) : (halting E).reaches .now (liftM y : Run σ α) fun _ a => ∃ w, (y w).1 = a :=
  fun _ _ s _ => ends_effect ⟨.now, trivial, trivial, s.world, rfl⟩

theorem haltsAs_effect (y : Effect σ α) : HaltsAs (liftM y : Run σ α) E :=
  (halting E).ofImp (halting_effect y) fun _ _ _ _ => trivial

theorem halting_fresh (y : Fresh .node α) : (halting E).reaches .now (liftM y : Run σ α) fun _ a => ∃ s, (y s).1 = a :=
  fun _ _ s _ => ends_fresh ⟨.now, trivial, trivial, s.nodes, rfl⟩

theorem haltsAs_fresh (y : Fresh .node α) : HaltsAs (liftM y : Run σ α) E :=
  (halting E).ofImp (halting_fresh y) fun _ _ _ _ => trivial

theorem haltsAs_build (y : Build α) : HaltsAs (liftM y : Run σ α) E :=
  fun _ _ _ _ => ends_build ⟨.now, trivial, trivial, trivial⟩

theorem haltsAs_fallible {y : Fallible α} (hE : ∀ s fault, y s = .error fault → E (.fault fault)) :
    HaltsAs (liftM y : Run σ α) E :=
  fun _ _ _ _ => ends_fallible (fun _ _ _ => ⟨.now, trivial, trivial, trivial⟩) fun fault h => hE _ fault h

end Halting

/-! ### Runs that count nothing -/

/-- The rules for runs that are not halted and do not change the total `t` of what is counted. -/
abbrev still (t : Nat) : Logic (Run σ) Moment := logic (fun _ s => s.tally.total = t) fun _ => False

theorem still_effect {t : Nat} (x : Effect σ α) :
    (still t).reaches .now (liftM x : Run σ α) fun _ a => ∃ w, (x w).1 = a :=
  fun _ _ s hs => ends_effect ⟨.now, le_rfl, hs, s.world, rfl⟩

theorem still_fresh {t : Nat} (x : Fresh .node α) :
    (still t).reaches .now (liftM x : Run σ α) fun _ a => ∃ s, (x s).1 = a :=
  fun _ _ s hs => ends_fresh ⟨.now, le_rfl, hs, s.nodes, rfl⟩

/-- A fold that is given up is no change. -/
theorem still_refused {t : Nat} : (still t).reaches .now (Optimizer.record .refused : Run σ Unit) fun _ _ => True :=
  fun _ _ _ hs => ends_record ⟨.now, le_rfl, hs, trivial⟩

theorem still_run {x : Run σ α} {a : α} {s : Progress σ} (h : (still s.tally.total).reaches .now x fun _ b => b = a) :
    ∃ s', x s = .ok a s' ∧ s'.tally.total = s.tally.total := by
  cases h .now le_rfl s rfl with
  | result hx hQ =>
    obtain ⟨_, _, ht, rfl⟩ := hQ
    exact ⟨_, hx, ht⟩
  | halted _ h => cases h

end Run

end TypedTree
