import TypedTree.Expr.Equality
import TypedTree.Proofs.Purity
import TypedTree.Proofs.Scope
import TypedTree.Proofs.ValueEquality

/-!
# Equality of expressions as a congruence

Equality mixes two relations at every level: nodes and clauses are equal by identity or by structure, and values by structure
alone, where a NaN differs from itself. In a store the identities decide what a node or a clause is, so equal expressions are
one node or have one type and forms that are alike (`Expr.eq_or_alike`): constants with equal values, or forms of one kind with
equal sub-expressions. A shared clause counts as structure there, since the parts of a clause equal themselves.

Whatever holds between a node and itself, and between alike nodes when it holds between their sub-expressions, holds between
equal expressions (`Expr.equals_induction`). That gives symmetry, transitivity and what the analyses have in common on equal
expressions, one layer at a time (`equality_is_congruence`).
-/

namespace TypedTree

/-! ### Corresponding forms, turned around and joined -/

section Correspondence

variable {α β γ : Type} {R : α → β → Prop} {S : β → γ → Prop} {T : α → γ → Prop}

theorem Form.Rel.flip {f : Form α} {g : Form β} (h : Form.Rel R f g) : Form.Rel (fun y x => R x y) g f := by
  cases h with
  | constant v => exact .constant v
  | var x => exact .var x
  | defaultOf => exact .defaultOf
  | convert h => exact .convert h
  | call h hs => exact .call (optionRel_flip h) hs.flip
  | access h => exact .access (optionRel_flip h)
  | new hs => exact .new hs.flip
  | newArray hs => exact .newArray hs.flip
  | index h hs => exact .index h hs.flip
  | invoke h hs => exact .invoke h hs.flip
  | lambda h => exact .lambda h
  | conditional h h' h'' => exact .conditional h h' h''
  | logical h h' => exact .logical h h'
  | switch h hs h' =>
    refine .switch h (List.Forall₂.flip (hs.imp fun _ _ hc => ?_)) (optionRel_flip h')
    exact ⟨hc.tests.flip, hc.body⟩
  | typeTest h => exact .typeTest h
  | throw h => exact .throw (optionRel_flip h)
  | block hs => exact .block hs.flip
  | tryCatch h hs h' h'' =>
    refine .tryCatch h (List.Forall₂.flip (hs.imp fun _ _ hc => ?_)) (optionRel_flip h') (optionRel_flip h'')
    exact ⟨hc.test.symm, hc.binding.symm, optionRel_flip hc.filter, hc.body⟩
  | jump h => exact .jump (optionRel_flip h)

/-- Both of two related sub-expressions are sub-expressions of their forms. -/
theorem Form.Rel.mem {f : Form α} {g : Form β} (h : Form.Rel R f g) :
    Form.Rel (fun x y => x ∈ f.children ∧ y ∈ g.children ∧ R x y) f g := by
  have hright := h.flip.imp (S := fun y x => y ∈ g.children ∧ R x y) fun y hy x hR => ⟨hy, hR⟩
  exact hright.flip.imp fun x hx y hR => ⟨hx, hR⟩

theorem Form.Rel.comp {f : Form α} {g : Form β} {k : Form γ} (h : Form.Rel R f g) (h' : Form.Rel S g k)
    (hT : ∀ x y z, R x y → S y z → T x z) : Form.Rel T f k := by
  have hT' : ∀ {P : α → Prop} x, P x → ∀ y z, R x y → S y z → T x z := fun x _ => hT x
  cases h with
  | constant v => cases h' with | constant => exact .constant v
  | var x => cases h' with | var => exact .var x
  | defaultOf => cases h' with | defaultOf => exact .defaultOf
  | convert h => cases h' with | convert h' => exact .convert (hT _ _ _ h h')
  | call h hs => cases h' with | call h' hs' => exact .call (optionRel_trans h h' hT') (forall₂_trans hs hs' hT')
  | access h => cases h' with | access h' => exact .access (optionRel_trans h h' hT')
  | new hs => cases h' with | new hs' => exact .new (forall₂_trans hs hs' hT')
  | newArray hs => cases h' with | newArray hs' => exact .newArray (forall₂_trans hs hs' hT')
  | index h hs => cases h' with | index h' hs' => exact .index (hT _ _ _ h h') (forall₂_trans hs hs' hT')
  | invoke h hs => cases h' with | invoke h' hs' => exact .invoke (hT _ _ _ h h') (forall₂_trans hs hs' hT')
  | lambda h => cases h' with | lambda h' => exact .lambda (hT _ _ _ h h')
  | conditional h₁ h₂ h₃ =>
    cases h' with
    | conditional h₁' h₂' h₃' => exact .conditional (hT _ _ _ h₁ h₁') (hT _ _ _ h₂ h₂') (hT _ _ _ h₃ h₃')
  | logical h₁ h₂ => cases h' with | logical h₁' h₂' => exact .logical (hT _ _ _ h₁ h₁') (hT _ _ _ h₂ h₂')
  | switch h₁ hs h₂ =>
    cases h' with
    | switch h₁' hs' h₂' =>
      refine .switch (hT _ _ _ h₁ h₁') (forall₂_trans hs hs' fun c _ d e hc hd => ?_) (optionRel_trans h₂ h₂' hT')
      exact ⟨forall₂_trans hc.tests hd.tests hT', hT _ _ _ hc.body hd.body⟩
  | typeTest h => cases h' with | typeTest h' => exact .typeTest (hT _ _ _ h h')
  | throw h => cases h' with | throw h' => exact .throw (optionRel_trans h h' hT')
  | block hs => cases h' with | block hs' => exact .block (forall₂_trans hs hs' hT')
  | tryCatch h₁ hs h₂ h₃ =>
    cases h' with
    | tryCatch h₁' hs' h₂' h₃' =>
      refine .tryCatch (hT _ _ _ h₁ h₁') (forall₂_trans hs hs' fun c _ d e hc hd => ?_) (optionRel_trans h₂ h₂' hT')
        (optionRel_trans h₃ h₃' hT')
      exact ⟨hc.test.trans hd.test, hc.binding.trans hd.binding, optionRel_trans hc.filter hd.filter hT',
        hT _ _ _ hc.body hd.body⟩
  | jump h => cases h' with | jump h' => exact .jump (optionRel_trans h h' hT')

theorem all_eq_of_forall₂ {p : α → Bool} {q : β → Bool} {as : List α} {bs : List β}
    (h : List.Forall₂ (fun a b => p a = q b) as bs) : as.all p = bs.all q := by
  induction h with
  | nil => rfl
  | cons h _ ih => rw [List.all_cons, List.all_cons, h, ih]

end Correspondence

/-! ### One layer -/

section Layer

variable {α β γ : Type}

theorem agreeOption_map (h : α → β) (r : β → γ → Bool) (a : Option α) (b : Option γ) :
    agreeOption r (a.map h) b = agreeOption (fun x y => r (h x) y) a b := by
  cases a <;> cases b <;> rfl

theorem agreeList_map (h : α → β) (r : β → γ → Bool) (as : List α) (bs : List γ) :
    agreeList r (as.map h) bs = agreeList (fun x y => r (h x) y) as bs := by
  simp [agreeList, List.zip_map_left, Function.comp_def]

theorem Case.agree_map (h : α → β) (r : β → γ → Bool) (c : Case α) (d : Case γ) :
    Case.agree r (c.map h) d = Case.agree (fun x y => r (h x) y) c d := by
  simp only [Case.agree, Case.map, agreeList_map]

theorem Clause.agree_map (h : α → β) (r : β → γ → Bool) (c : Clause α) (d : Clause γ) :
    Clause.agree r (c.map h) d = Clause.agree (fun x y => r (h x) y) c d := by
  simp only [Clause.agree, Clause.map, agreeOption_map]

theorem Form.agree_map (h : α → β) (r : β → γ → Bool) (f : Form α) (g : Form γ) :
    (f.map h).agree r g = f.agree (fun x y => r (h x) y) g := by
  cases f with
  | constant | var | defaultOf | convert | lambda | conditional | logical | typeTest => cases g <;> rfl
  | switch => cases g <;> simp only [Form.map, Form.agree, agreeOption_map, agreeList_map, Case.agree_map]
  | tryCatch => cases g <;> simp only [Form.map, Form.agree, agreeOption_map, agreeList_map, Clause.agree_map]
  | _ => cases g <;> simp only [Form.map, Form.agree, agreeOption_map, agreeList_map]

theorem agreeOption_iff {r : α → β → Bool} {a : Option α} {b : Option β} :
    agreeOption r a b = true ↔ Option.Rel (fun x y => r x y = true) a b := by
  cases a <;> cases b <;> simp [agreeOption]

theorem agreeOption_refl {r : α → α → Bool} (hr : ∀ a, r a a = true) (a : Option α) :
    Option.Rel (fun x y => r x y = true) a a := by
  cases a with
  | none => exact .none
  | some a => exact .some (hr a)

theorem agreeList_iff {r : α → β → Bool} {as : List α} {bs : List β} :
    agreeList r as bs = true ↔ List.Forall₂ (fun x y => r x y = true) as bs := by
  induction as generalizing bs with
  | nil => cases bs <;> simp [agreeList]
  | cons a as ih =>
    cases bs with
    | nil => simp [agreeList]
    | cons b bs => rw [agreeList_cons, Bool.and_eq_true, ih, List.forall₂_cons]

theorem Case.agree_iff {r : α → β → Bool} {c : Case α} {d : Case β} :
    Case.agree r c d = true ↔ Case.Rel (fun x y => r x y = true) c d := by
  rw [Case.agree, Bool.and_eq_true, agreeList_iff]
  exact ⟨fun h => ⟨h.1, h.2⟩, fun h => ⟨h.tests, h.body⟩⟩

theorem Clause.agree_iff {r : α → β → Bool} {c : Clause α} {d : Clause β} :
    Clause.agree r c d = true ↔ c.id = d.id ∨ Clause.Rel (fun x y => r x y = true) c d := by
  simp only [Clause.agree, Bool.or_eq_true, Bool.and_eq_true, beq_iff_eq, agreeOption_iff, and_assoc]
  exact or_congr_right ⟨fun h => ⟨h.1, h.2.1, h.2.2.1, h.2.2.2⟩, fun h => ⟨h.test, h.binding, h.filter, h.body⟩⟩

/-- The form is a constant. -/
def Form.isConstant : Form α → Bool
  | .constant _ => true
  | _ => false

/-- Two forms are constants with equal values, or of another kind and correspond. -/
inductive Form.Alike (R : α → β → Prop) : Form α → Form β → Prop where
  /-- Constants. -/
  | constant {v w : Value} : v.equals w = true → Alike R (.constant v) (.constant w)
  /-- All other forms. -/
  | other {f : Form α} {g : Form β} : f.isConstant = false → Form.Rel R f g → Alike R f g

/-- Forms that are alike agree. -/
theorem Form.Alike.agree {r : α → β → Bool} {f : Form α} {g : Form β} (h : Form.Alike (fun x y => r x y = true) f g) :
    f.agree r g = true := by
  cases h with
  | constant h => exact h
  | other hf h =>
    cases h with
    | constant => cases hf
    | switch h hs h' =>
      have hcases := agreeList_iff.2 (hs.imp fun _ _ => Case.agree_iff.2)
      simp [Form.agree, agreeOption_iff, h, h', hcases]
    | tryCatch h hs h' h'' =>
      have hclauses := agreeList_iff.2 (hs.imp fun _ _ hc => Clause.agree_iff.2 (.inr hc))
      simp [Form.agree, agreeOption_iff, h, h', h'', hclauses]
    | _ => simp [Form.agree, agreeOption_iff, agreeList_iff, *]

/-- Forms that agree are alike, provided that every sub-expression agrees with itself and that a clause is the same
one only as itself. -/
theorem Form.alike_of_agree {r : α → α → Bool} (hr : ∀ a, r a a = true) {f g : Form α}
    (hclauses : ∀ c ∈ f.clauses, ∀ d ∈ g.clauses, c.id = d.id → c = d) (h : f.agree r g = true) :
    Form.Alike (fun x y => r x y = true) f g := by
  have hclause : ∀ c ∈ f.clauses, ∀ d ∈ g.clauses, Clause.agree r c d = true →
      Clause.Rel (fun x y => r x y = true) c d := by
    intro c hc d hd h
    obtain hid | h := Clause.agree_iff.1 h
    · obtain rfl := hclauses c hc d hd hid
      exact ⟨rfl, rfl, agreeOption_refl hr c.filter, hr c.body⟩
    · exact h
  unfold Form.agree at h
  split at h
  all_goals try simp only [Bool.and_eq_true, beq_iff_eq, agreeOption_iff, agreeList_iff, Case.agree_iff, and_assoc] at h
  · exact .constant h
  · exact .other rfl (h ▸ .var _)
  · exact .other rfl .defaultOf
  · exact .other rfl (.convert h)
  · obtain ⟨h, rfl, hs⟩ := h
    exact .other rfl (.call h hs)
  · obtain ⟨h, rfl⟩ := h
    exact .other rfl (.access h)
  · obtain ⟨rfl, hs⟩ := h
    exact .other rfl (.new hs)
  · obtain ⟨rfl, rfl, hs⟩ := h
    exact .other rfl (.newArray hs)
  · obtain ⟨rfl, h, rfl, hs⟩ := h
    exact .other rfl (.index h hs)
  · exact .other rfl (.invoke h.1 h.2)
  · obtain ⟨rfl, h⟩ := h
    exact .other rfl (.lambda h)
  · exact .other rfl (.conditional h.1 h.2.1 h.2.2)
  · obtain ⟨rfl, h⟩ := h
    exact .other rfl (.logical h.1 h.2)
  · obtain ⟨h, rfl, hs, h'⟩ := h
    exact .other rfl (.switch h hs h')
  · obtain ⟨rfl, h, rfl⟩ := h
    exact .other rfl (.typeTest h)
  · exact .other rfl (.throw h)
  · obtain ⟨rfl, hs⟩ := h
    exact .other rfl (.block hs)
  · obtain ⟨h, hs, h'⟩ := h
    exact .other rfl (.tryCatch h (forall₂_imp_mem hs hclause) h'.1 h'.2)
  · obtain ⟨rfl, rfl, h⟩ := h
    exact .other rfl (.jump h)
  · cases h

variable {R : α → β → Prop} {f : Form α} {g : Form β}

theorem Form.Rel.isConstant_eq (h : Form.Rel R f g) : f.isConstant = g.isConstant := by
  cases h <;> rfl

theorem Form.Alike.imp {S : α → β → Prop} (h : Form.Alike R f g)
    (hRS : ∀ x ∈ f.children, ∀ y ∈ g.children, R x y → S x y) : Form.Alike S f g := by
  cases h with
  | constant h => exact .constant h
  | other hf h => exact .other hf (h.mem.mono fun x y hR => hRS x hR.1 y hR.2.1 hR.2.2)

theorem Form.Alike.children (h : Form.Alike R f g) : List.Forall₂ R f.children g.children := by
  cases h with
  | constant => exact .nil
  | other _ h => exact h.children

theorem Form.Alike.constants_or_rel (h : Form.Alike R f g) :
    (∃ v w, f = .constant v ∧ g = .constant w ∧ v.equals w = true) ∨ f.isConstant = false ∧ Form.Rel R f g := by
  cases h with
  | constant h => exact .inl ⟨_, _, rfl, rfl, h⟩
  | other hf h => exact .inr ⟨hf, h⟩

theorem Form.Alike.flip (h : Form.Alike R f g) : Form.Alike (fun y x => R x y) g f := by
  cases h with
  | constant h => exact .constant (Value.equals_symm h)
  | other hf h => exact .other (h.isConstant_eq ▸ hf) h.flip

theorem Form.Alike.comp {S : β → γ → Prop} {T : α → γ → Prop} {k : Form γ} (h : Form.Alike R f g)
    (h' : Form.Alike S g k) (hT : ∀ x y z, R x y → S y z → T x z) : Form.Alike T f k := by
  cases h with
  | constant h =>
    cases h' with
    | constant h' => exact .constant (Value.equals_trans h h')
    | other hg => cases hg
  | other hf h =>
    cases h' with
    | constant => cases h.isConstant_eq.symm.trans hf
    | other _ h' => exact .other hf (h.comp h' hT)

end Layer

theorem Value.isNull_of_equals {v w : Value} (h : v.equals w = true) : v.isNull = w.isNull := by
  rw [Value.equals_iff] at h
  cases h <;> rfl

/-! ### Equal expressions -/

namespace Expr

variable {st : Store} {a b c : Expr}

theorem equals_refl (e : Expr) : e.equals e = true := by
  rw [equals_eq]
  simp [same]

theorem equals_of_alike (hty : a.ty = b.ty) (h : Form.Alike (fun x y => x.equals y = true) a.form b.form) :
    a.equals b = true := by
  rw [equals_eq, Form.agree_map, h.agree, hty]
  simp

/-- Equal expressions are one node, or of one type and alike. -/
theorem eq_or_alike (ha : a ∈ st) (hb : b ∈ st) (h : a.equals b = true) :
    a = b ∨ a.ty = b.ty ∧ Form.Alike (fun x y => x.equals y = true) a.form b.form := by
  rw [equals_eq, Form.agree_map, Bool.or_eq_true, Bool.and_eq_true, beq_iff_eq] at h
  refine h.imp (Store.eq_of_same ha hb) fun h => ⟨h.1, Form.alike_of_agree equals_refl ?_ h.2⟩
  exact fun c hc d hd => st.clause_eq_of_id (st.clauses_mem ha hc) (st.clauses_mem hb hd)

/-- **Induction along equality**: what relates every expression to itself, and two nodes of one type whenever it relates
their sub-expressions, relates equal expressions. -/
theorem equals_induction {P : Expr → Expr → Prop} (refl : ∀ e, P e e)
    (node : ∀ a ∈ st, ∀ b ∈ st, a.equals b = true → a.ty = b.ty → Form.Alike P a.form b.form → P a b)
    (ha : a ∈ st) (hb : b ∈ st) (h : a.equals b = true) : P a b := by
  induction a using inductionOn generalizing b with
  | node a ih =>
    obtain rfl | ⟨hty, halike⟩ := eq_or_alike ha hb h
    · exact refl a
    · refine node a ha b hb h hty (halike.imp fun x hx y hy hxy => ?_)
      exact ih x hx (Store.child ha hx) (Store.child hb hy) hxy

theorem equals_symm (ha : a ∈ st) (hb : b ∈ st) (h : a.equals b = true) : b.equals a = true := by
  refine equals_induction (P := fun a b => b.equals a = true) equals_refl ?_ ha hb h
  intro a _ b _ _ hty halike
  exact equals_of_alike hty.symm halike.flip

theorem equals_trans (ha : a ∈ st) (hb : b ∈ st) (hc : c ∈ st) (h : a.equals b = true) (h' : b.equals c = true) :
    a.equals c = true := by
  refine equals_induction (P := fun a b => ∀ c ∈ st, b.equals c = true → a.equals c = true) (fun _ _ _ h => h) ?_ ha hb h
    c hc h'
  intro a _ b hb hab hty halike c hc hbc
  obtain rfl | ⟨hty', halike'⟩ := eq_or_alike hb hc hbc
  · exact hab
  · -- the third expression stays in the store, where the hypothesis for the first two can be used on its parts
    have hmem := halike'.imp (S := fun y z => z ∈ st ∧ y.equals z = true) fun _ _ z hz hyz => ⟨Store.child hc hz, hyz⟩
    exact equals_of_alike (hty.trans hty') (halike.comp hmem fun x y z hx hyz => hx z hyz.1 hyz.2)

/-- A constant whose value differs from itself equals no other node. -/
theorem eq_of_equals_irreflexive {v : Value} (ha : a ∈ st) (hb : b ∈ st) (hform : a.form = .constant v)
    (hv : v.equals v = false) (h : a.equals b = true) : a = b := by
  obtain rfl | ⟨_, halike⟩ := eq_or_alike ha hb h
  · rfl
  · obtain ⟨v', w, hv', _, hvw⟩ | ⟨hf, _⟩ := halike.constants_or_rel
    · cases hform.symm.trans hv'
      cases hv.symm.trans (Value.equals_trans hvw (Value.equals_symm hvw))
    · rw [hform] at hf
      cases hf

/-! ### Analyses of equal expressions -/

theorem nodeCount_of_equals (ha : a ∈ st) (hb : b ∈ st) (h : a.equals b = true) : a.nodeCount = b.nodeCount := by
  refine equals_induction (P := fun a b => a.nodeCount = b.nodeCount) (fun _ => rfl) ?_ ha hb h
  intro a _ b _ _ _ halike
  have hcounts : a.form.children.map nodeCount = b.form.children.map nodeCount :=
    List.forall₂_eq_eq_eq ▸ forall₂_map halike.children
  rw [nodeCount_eq, nodeCount_eq, Form.sum_map, Form.sum_map, hcounts]

theorem free_iff_of_equals (ha : a ∈ st) (hb : b ∈ st) (h : a.equals b = true) (x : Var) :
    Free x a ↔ Free x b := by
  refine equals_induction (P := fun a b => Free x a ↔ Free x b) (fun _ => Iff.rfl) ?_ ha hb h
  intro a _ b _ _ _ halike
  obtain ⟨v, w, hv, hw, _⟩ | ⟨_, hrel⟩ := halike.constants_or_rel
  · exact iff_of_false (IsLeaf.constant hv).not_free (IsLeaf.constant hw).not_free
  · exact ⟨fun h => h.of_rel hrel.flip fun _ _ hR => hR.1, fun h => h.of_rel hrel fun _ _ hR => hR.2⟩

theorem ty_of_equals (ha : a ∈ st) (hb : b ∈ st) (h : a.equals b = true) : a.ty = b.ty :=
  equals_induction (P := fun a b => a.ty = b.ty) (fun _ => rfl) (fun _ _ _ _ _ hty _ => hty) ha hb h

theorem isThrow_of_equals (ha : a ∈ st) (hb : b ∈ st) (h : a.equals b = true) : a.isThrow = b.isThrow := by
  refine equals_induction (P := fun a b => a.isThrow = b.isThrow) (fun _ => rfl) ?_ ha hb h
  intro a _ b _ _ _ h
  unfold isThrow
  generalize a.form = f at h
  generalize b.form = g at h
  cases h with
  | constant => rfl
  | other _ h => cases h <;> rfl

theorem isNeverNull_of_equals (ha : a ∈ st) (hb : b ∈ st) (h : a.equals b = true) : a.isNeverNull = b.isNeverNull := by
  refine equals_induction (P := fun a b => a.isNeverNull = b.isNeverNull) (fun _ => rfl) ?_ ha hb h
  intro a _ b _ _ hty halike
  obtain ⟨_, ty, f⟩ := a
  obtain ⟨_, _, g⟩ := b
  obtain rfl : ty = _ := hty
  change Form.Alike _ f g at halike
  cases halike with
  | constant h => simp only [isNeverNull, Value.isNull_of_equals h]
  | other _ h =>
    cases h with
    | convert h => simp only [isNeverNull, h]
    | _ => rfl

end Expr

namespace Catalog

variable {c : Catalog} {st : Store} {a b : Expr}

theorem purity_of_equals (ha : a ∈ st) (hb : b ∈ st) (h : a.equals b = true) : c.purity a = c.purity b := by
  refine Expr.equals_induction (P := fun a b => c.purity a = c.purity b) (fun _ => rfl) ?_ ha hb h
  intro a _ b _ _ hty halike
  funext use
  obtain ⟨v, w, hv, hw, _⟩ | ⟨_, hrel⟩ := halike.constants_or_rel
  · rw [purity_of_form hv, purity_of_form hw]
    cases use <;> rfl
  · rw [Bool.eq_iff_iff]
    constructor
    · exact keepsPurity_of_rel hty.symm (hrel.mono fun x y hxy use hx => hxy ▸ hx) use
    · exact keepsPurity_of_rel hty (hrel.flip.mono fun y x hxy use hy => hxy ▸ hy) use

/-- Two sub-expressions are not null together and raise no exception together. -/
def SameVerdicts (p q : Expr × (Unit → Bool)) : Prop := p.1.isNeverNull = q.1.isNeverNull ∧ p.2 () = q.2 ()

theorem all_of_sameVerdicts {as bs : List (Expr × (Unit → Bool))} (h : List.Forall₂ SameVerdicts as bs) :
    as.all (·.2 ()) = bs.all (·.2 ()) :=
  all_eq_of_forall₂ (h.imp fun _ _ hR => hR.2)

theorem isSafeReceiver_of_sameVerdicts {a b : Option (Expr × (Unit → Bool))} (h : Option.Rel SameVerdicts a b) :
    isSafeReceiver a = isSafeReceiver b := by
  cases h with
  | none => rfl
  | some h => simp only [isSafeReceiver, Option.all_some, h.1, h.2]

theorem neverThrowsForm_of_rel {f g : Form (Expr × (Unit → Bool))} (h : Form.Rel SameVerdicts f g) :
    c.neverThrowsForm f = c.neverThrowsForm g := by
  cases h with
  | call h hs => simp only [neverThrowsForm, isSafeReceiver_of_sameVerdicts h, all_of_sameVerdicts hs]
  | access h => simp only [neverThrowsForm, isSafeReceiver_of_sameVerdicts h]
  | new hs | newArray hs | block hs => simp only [neverThrowsForm, all_of_sameVerdicts hs]
  | conditional h h' h'' => simp only [neverThrowsForm, h.2, h'.2, h''.2]
  | logical h h' => simp only [neverThrowsForm, h.2, h'.2]
  | typeTest h => simp only [neverThrowsForm, h.2]
  | _ => rfl

theorem neverThrows_of_equals (ha : a ∈ st) (hb : b ∈ st) (h : a.equals b = true) : c.neverThrows a = c.neverThrows b := by
  refine (Expr.equals_induction (P := fun a b => a.isNeverNull = b.isNeverNull ∧ c.neverThrows a = c.neverThrows b)
    (fun _ => ⟨rfl, rfl⟩) ?_ ha hb h).2
  intro a ha b hb h _ halike
  refine ⟨Expr.isNeverNull_of_equals ha hb h, ?_⟩
  rw [neverThrows_eq, neverThrows_eq]
  obtain ⟨v, w, hv, hw, _⟩ | ⟨_, hrel⟩ := halike.constants_or_rel
  · rw [hv, hw]
    rfl
  · exact neverThrowsForm_of_rel hrel.map

end Catalog

/-- **Equality** of the nodes of a store is an equivalence, by which a NaN equals itself and no other node, and none of the
analyses tells equal expressions apart. -/
theorem equality_is_congruence (st : Store) :
    (Equivalence fun a b : {e : Expr // e ∈ st} => a.1.equals b.1 = true) ∧
      (∀ a ∈ st, ∀ b ∈ st, ∀ x : Double, x.isNaN = true → a.form = .constant (.double x) →
        (a.equals b = true ↔ a = b)) ∧
      ∀ a ∈ st, ∀ b ∈ st, a.equals b = true →
        a.ty = b.ty ∧ a.nodeCount = b.nodeCount ∧ (∀ x, x ∈ freeVars [a] ↔ x ∈ freeVars [b]) ∧
          ∀ catalog : Catalog, catalog.facts.isPure a = catalog.facts.isPure b ∧
            catalog.facts.neverThrows a = catalog.facts.neverThrows b ∧
            catalog.facts.alwaysThrows a = catalog.facts.alwaysThrows b := by
  refine ⟨⟨fun a => a.1.equals_refl, fun {a b} => Expr.equals_symm a.2 b.2,
    fun {a b c} => Expr.equals_trans a.2 b.2 c.2⟩, ?_, ?_⟩
  · intro a ha b hb x hx hform
    have hnan : (Value.double x).equals (.double x) = false := by
      simp [Value.equals, Double.equals, hx]
    constructor
    · exact Expr.eq_of_equals_irreflexive ha hb hform hnan
    · rintro rfl
      exact a.equals_refl
  · intro a ha b hb h
    refine ⟨Expr.ty_of_equals ha hb h, Expr.nodeCount_of_equals ha hb h, fun x => ?_, fun catalog => ⟨?_, ?_, ?_⟩⟩
    · simp only [mem_freeVars, List.mem_singleton, exists_eq_left, Expr.free_iff_of_equals ha hb h x]
    · exact congrFun (Catalog.purity_of_equals ha hb h) .evaluated
    · exact Catalog.neverThrows_of_equals ha hb h
    · exact Expr.isThrow_of_equals ha hb h

open Store

/-- Two NaNs and three bodies with a handler, all made of the first NaN. The first two share their clause, the third has one
of its own. -/
def handledNaNs : Fresh .node Expr := do
  let nan ← Expr.make .double (.constant (.double ⟨0x7ff8000000000000⟩))
  let other ← Expr.make .double (.constant (.double ⟨0x7ff8000000000000⟩))
  let clause ← Clause.make .exception none none nan
  let left ← Expr.tryCatch nan [clause] none none
  let middle ← Expr.tryCatch nan [clause] none none
  let clause' ← Clause.make .exception none none nan
  let right ← Expr.tryCatch nan [clause'] none none
  Expr.block [] [nan, other, left, middle, right] .double

theorem handledNaNs_reaches : making.reaches initial handledNaNs fun st e => e ∈ st := by
  refine making.ofBind (Expr.make_mem rfl (List.forall_mem_nil _)) fun st₁ _ nan hnan => ?_
  refine making.ofBind (Expr.make_mem rfl (List.forall_mem_nil _)) fun st₂ hst₂ other hother => ?_
  have htry : ∀ {st : Store} {clause : Clause Expr}, nan ∈ st → clause ∈ st.clauses → clause.filter = none →
      clause.body = nan → making.reaches st (Expr.tryCatch nan [clause] none none) fun st' e => e ∈ st' := by
    intro st clause hnan hclause hfilter hbody
    refine making.ofImp (Expr.make_reaches ?_ (by simpa [Form.clauses] using hclause)) fun _ _ _ h => h.1
    simpa [Form.children, Clause.children, hfilter, hbody] using hnan
  refine making.ofBind Clause.make_reaches ?_
  rintro st₃ hst₃ clause ⟨hclause, _, _, _, hfilter, hbody⟩
  have hnan₃ := mem_of_le (hst₂.trans hst₃) hnan
  refine making.ofBind (htry hnan₃ hclause hfilter hbody) fun st₄ hst₄ left hleft => ?_
  have hnan₄ := mem_of_le hst₄ hnan₃
  refine making.ofBind (htry hnan₄ (clause_mem_of_le hst₄ hclause) hfilter hbody) fun st₅ hst₅ middle hmiddle => ?_
  refine making.ofBind Clause.make_reaches ?_
  rintro st₆ hst₆ clause' ⟨hclause', _, _, _, hfilter', hbody'⟩
  have hnan₆ := mem_of_le (hst₅.trans hst₆) hnan₄
  refine making.ofBind (htry hnan₆ hclause' hfilter' hbody') fun st₇ hst₇ right hright => ?_
  have hst : st₄ ≤ st₇ := hst₅.trans (hst₆.trans hst₇)
  refine Expr.make_mem rfl ?_
  simpa [Form.children] using ⟨mem_of_le hst₇ hnan₆, mem_of_le (hst₃.trans (hst₄.trans hst)) hother,
    mem_of_le hst hleft, mem_of_le (hst₆.trans hst₇) hmiddle, hright⟩

/-- One step by the identity of a clause and one by its structure, over a NaN that equals itself only. -/
theorem equality_is_congruence_handledNaNs :
    let nan (id : Nat) : Expr := ⟨.made id, .double, .constant (.double ⟨0x7ff8000000000000⟩)⟩
    let handled (id clause : Nat) : Expr :=
      ⟨.made id, .double, .tryCatch (nan 0) [⟨clause, .exception, none, none, nan 0⟩] none none⟩
    ∃ st : Store, (∀ e ∈ [nan 0, nan 1, handled 3 2, handled 4 2, handled 6 5], e ∈ st) ∧
      (nan 0).equals (nan 0) = true ∧ (nan 0).equals (nan 1) ≠ true ∧
      (handled 3 2).equals (handled 4 2) = true ∧ (handled 4 2).equals (handled 6 5) = true ∧
      (handled 3 2).equals (handled 6 5) = true ∧ (handled 6 5).equals (handled 3 2) = true ∧
      (handled 3 2).nodeCount = (handled 6 5).nodeCount ∧
      Catalog.empty.facts.neverThrows (handled 3 2) = Catalog.empty.facts.neverThrows (handled 6 5) := by
  intro nan handled
  obtain ⟨st, _, he⟩ := Expr.identified_of_reaches handledNaNs_reaches ⟨0⟩
  have hmem : ∀ e ∈ [nan 0, nan 1, handled 3 2, handled 4 2, handled 6 5], e ∈ st := fun e h => Store.child he h
  have hnan₀ := hmem (nan 0) (by simp)
  have hnan₁ := hmem (nan 1) (by simp)
  have hleft := hmem (handled 3 2) (by simp)
  have hmiddle := hmem (handled 4 2) (by simp)
  have hright := hmem (handled 6 5) (by simp)
  have hshared : (handled 3 2).equals (handled 4 2) = true := by decide +kernel
  have hcopied : (handled 4 2).equals (handled 6 5) = true := by decide +kernel
  obtain ⟨hequiv, hnan, hequal⟩ := equality_is_congruence st
  have hboth : (handled 3 2).equals (handled 6 5) = true :=
    hequiv.trans (x := ⟨_, hleft⟩) (y := ⟨_, hmiddle⟩) (z := ⟨_, hright⟩) hshared hcopied
  obtain ⟨_, hcount, _, hverdicts⟩ := hequal _ hleft _ hright hboth
  refine ⟨st, hmem, hequiv.refl ⟨_, hnan₀⟩, fun h => ?_, hshared, hcopied, hboth, ?_, hcount, (hverdicts .empty).2.1⟩
  · have heq := (hnan _ hnan₀ _ hnan₁ _ (by decide +kernel) rfl).1 h
    cases heq
  · exact hequiv.symm (x := ⟨_, hleft⟩) (y := ⟨_, hright⟩) hboth

end TypedTree
