import Mathlib.Data.List.Forall2
import TypedTree.Expr.Substitution

/-!
# Forms that correspond

A pass replaces the sub-expressions of a node one by one and keeps everything else of its form. `Form.Rel R f g` says
so: `f` and `g` are of one kind with the same data, and their sub-expressions are related by `R`, place by place. The
identities of clauses are not compared, since a clause with new parts is a new clause.

A relation between forms gives one between their sub-expressions (`Form.Rel.children`), and it can be weakened place by
place (`Form.Rel.imp`).
-/

namespace TypedTree

section Parts

variable {α β : Type}

/-- The parts of two cases are related. -/
structure Case.Rel (R : α → β → Prop) (c : Case α) (d : Case β) : Prop where
  tests : List.Forall₂ R c.tests d.tests
  body : R c.body d.body

/-- Two clauses have the same test and binding, and their parts are related. -/
structure Clause.Rel (R : α → β → Prop) (c : Clause α) (d : Clause β) : Prop where
  test : c.test = d.test
  binding : c.binding = d.binding
  filter : Option.Rel R c.filter d.filter
  body : R c.body d.body

end Parts

namespace Form

variable {α β γ : Type}

/-- Two forms are of one kind, with the same data and related sub-expressions. -/
inductive Rel (R : α → β → Prop) : Form α → Form β → Prop where
  | constant (value : Value) : Rel R (.constant value) (.constant value)
  | var (x : Var) : Rel R (.var x) (.var x)
  | defaultOf : Rel R .defaultOf .defaultOf
  | convert {a b} : R a b → Rel R (.convert a) (.convert b)
  | call {a b m as bs} : Option.Rel R a b → List.Forall₂ R as bs → Rel R (.call a m as) (.call b m bs)
  | access {a b m} : Option.Rel R a b → Rel R (.access a m) (.access b m)
  | new {m as bs} : List.Forall₂ R as bs → Rel R (.new m as) (.new m bs)
  | newArray {t k as bs} : List.Forall₂ R as bs → Rel R (.newArray t k as) (.newArray t k bs)
  | index {a b m as bs x} : R a b → List.Forall₂ R as bs → Rel R (.index a m as x) (.index b m bs x)
  | invoke {a b as bs} : R a b → List.Forall₂ R as bs → Rel R (.invoke a as) (.invoke b bs)
  | lambda {xs a b} : R a b → Rel R (.lambda xs a) (.lambda xs b)
  | conditional {a b t u f g} : R a b → R t u → R f g → Rel R (.conditional a t f) (.conditional b u g)
  | logical {k a b c d} : R a b → R c d → Rel R (.logical k a c) (.logical k b d)
  | switch {a b m cs ds x y} : R a b → List.Forall₂ (Case.Rel R) cs ds → Option.Rel R x y →
      Rel R (.switch a m cs x) (.switch b m ds y)
  | typeTest {a b t k} : R a b → Rel R (.typeTest a t k) (.typeTest b t k)
  | throw {a b} : Option.Rel R a b → Rel R (.throw a) (.throw b)
  | block {xs as bs} : List.Forall₂ R as bs → Rel R (.block xs as) (.block xs bs)
  | tryCatch {a b cs ds x y f g} : R a b → List.Forall₂ (Clause.Rel R) cs ds → Option.Rel R x y →
      Option.Rel R f g → Rel R (.tryCatch a cs x f) (.tryCatch b ds y g)
  | jump {k l a b} : Option.Rel R a b → Rel R (.jump k l a) (.jump k l b)

end Form

/-! ### Sub-expressions of corresponding forms -/

section Children

variable {α β : Type} {R : α → β → Prop}

theorem forall₂_toList {a : Option α} {b : Option β} (h : Option.Rel R a b) :
    List.Forall₂ R a.toList b.toList := by
  cases h with
  | none => exact .nil
  | some h => exact .cons h .nil

theorem Case.Rel.children {c : Case α} {d : Case β} (h : Case.Rel R c d) :
    List.Forall₂ R c.children d.children :=
  List.rel_append h.tests (.cons h.body .nil)

theorem Clause.Rel.children {c : Clause α} {d : Clause β} (h : Clause.Rel R c d) :
    List.Forall₂ R c.children d.children :=
  List.rel_append (forall₂_toList h.filter) (.cons h.body .nil)

/-- The sub-expressions of corresponding forms are related in order. -/
theorem Form.Rel.children {f : Form α} {g : Form β} (h : Form.Rel R f g) :
    List.Forall₂ R f.children g.children := by
  cases h with
  | constant | var | defaultOf => exact .nil
  | convert h | lambda h | typeTest h => exact .cons h .nil
  | call h hs => exact List.rel_append (forall₂_toList h) hs
  | access h | throw h | jump h => exact forall₂_toList h
  | new hs | newArray hs | block hs => exact hs
  | index h hs | invoke h hs => exact .cons h hs
  | conditional h h' h'' => exact .cons h (.cons h' (.cons h'' .nil))
  | logical h h' => exact .cons h (.cons h' .nil)
  | switch h hs h' =>
    exact .cons h (List.rel_append (List.rel_flatMap hs fun _ _ => Case.Rel.children) (forall₂_toList h'))
  | tryCatch h hs h' h'' =>
    exact .cons h (List.rel_append (List.rel_append (List.rel_flatMap hs fun _ _ => Clause.Rel.children)
      (forall₂_toList h')) (forall₂_toList h''))

/-- Every sub-expression on the right has a partner on the left. -/
theorem exists_left_of_forall₂ {as : List α} {bs : List β} (h : List.Forall₂ R as bs) {b : β} (hb : b ∈ bs) :
    ∃ a ∈ as, R a b := by
  induction h with
  | nil => cases hb
  | cons h _ ih =>
    obtain rfl | hb := List.mem_cons.1 hb
    · exact ⟨_, List.mem_cons_self, h⟩
    · obtain ⟨a, ha, hR⟩ := ih hb
      exact ⟨a, List.mem_cons_of_mem _ ha, hR⟩

theorem Form.Rel.exists_left {f : Form α} {g : Form β} (h : Form.Rel R f g) {b : β} (hb : b ∈ g.children) :
    ∃ a ∈ f.children, R a b :=
  exists_left_of_forall₂ h.children hb

end Children

/-! ### Weakening -/

section Weakening

variable {α β : Type} {R S : α → β → Prop}

theorem optionRel_imp {a : Option α} {b : Option β} (h : Option.Rel R a b)
    (hRS : ∀ x ∈ a.toList, ∀ y, R x y → S x y) : Option.Rel S a b := by
  cases h with
  | none => exact .none
  | some h => exact .some (hRS _ (by simp) _ h)

theorem forall₂_imp_mem {as : List α} {bs : List β} (h : List.Forall₂ R as bs)
    (hRS : ∀ x ∈ as, ∀ y ∈ bs, R x y → S x y) : List.Forall₂ S as bs := by
  induction h with
  | nil => exact .nil
  | cons h _ ih =>
    refine .cons (hRS _ List.mem_cons_self _ List.mem_cons_self h) (ih fun x hx y hy => ?_)
    exact hRS x (List.mem_cons_of_mem _ hx) y (List.mem_cons_of_mem _ hy)

theorem forall₂_imp {as : List α} {bs : List β} (h : List.Forall₂ R as bs)
    (hRS : ∀ x ∈ as, ∀ y, R x y → S x y) : List.Forall₂ S as bs :=
  forall₂_imp_mem h fun x hx y _ => hRS x hx y

theorem Case.Rel.imp {c : Case α} {d : Case β} (h : Case.Rel R c d)
    (hRS : ∀ x ∈ c.children, ∀ y, R x y → S x y) : Case.Rel S c d where
  tests := forall₂_imp h.tests fun x hx => hRS x (by simp [Case.children, hx])
  body := hRS _ (by simp [Case.children]) _ h.body

theorem Clause.Rel.imp {c : Clause α} {d : Clause β} (h : Clause.Rel R c d)
    (hRS : ∀ x ∈ c.children, ∀ y, R x y → S x y) : Clause.Rel S c d where
  test := h.test
  binding := h.binding
  filter := optionRel_imp h.filter fun x hx => hRS x (List.mem_append_left _ hx)
  body := hRS _ (by simp [Clause.children]) _ h.body

/-- A relation between forms may be weakened on the sub-expressions they have. -/
theorem Form.Rel.imp {f : Form α} {g : Form β} (h : Form.Rel R f g)
    (hRS : ∀ x ∈ f.children, ∀ y, R x y → S x y) : Form.Rel S f g := by
  cases h with
  | constant v => exact .constant v
  | var x => exact .var x
  | defaultOf => exact .defaultOf
  | convert h => exact .convert (hRS _ (by simp [Form.children]) _ h)
  | call h hs =>
    exact .call (optionRel_imp h fun x hx => hRS x (List.mem_append_left _ hx))
      (forall₂_imp hs fun x hx => hRS x (List.mem_append_right _ hx))
  | access h => exact .access (optionRel_imp h hRS)
  | new hs => exact .new (forall₂_imp hs hRS)
  | newArray hs => exact .newArray (forall₂_imp hs hRS)
  | index h hs =>
    exact .index (hRS _ List.mem_cons_self _ h) (forall₂_imp hs fun x hx => hRS x (List.mem_cons_of_mem _ hx))
  | invoke h hs =>
    exact .invoke (hRS _ List.mem_cons_self _ h) (forall₂_imp hs fun x hx => hRS x (List.mem_cons_of_mem _ hx))
  | lambda h => exact .lambda (hRS _ (by simp [Form.children]) _ h)
  | conditional h h' h'' =>
    exact .conditional (hRS _ (by simp [Form.children]) _ h) (hRS _ (by simp [Form.children]) _ h')
      (hRS _ (by simp [Form.children]) _ h'')
  | logical h h' =>
    exact .logical (hRS _ (by simp [Form.children]) _ h) (hRS _ (by simp [Form.children]) _ h')
  | @switch a b m cs ds x y h hs h' =>
    refine .switch (hRS _ List.mem_cons_self _ h) (forall₂_imp hs fun c hc _ hR => hR.imp fun z hz => ?_)
      (optionRel_imp h' fun z hz => hRS z ?_)
    · exact hRS z (by simp only [Form.children, List.mem_cons, List.mem_append, List.mem_flatMap]; grind)
    · simp [Form.children, hz]
  | typeTest h => exact .typeTest (hRS _ (by simp [Form.children]) _ h)
  | throw h => exact .throw (optionRel_imp h hRS)
  | block hs => exact .block (forall₂_imp hs hRS)
  | @tryCatch a b cs ds x y f g h hs h' h'' =>
    refine .tryCatch (hRS _ (by simp [Form.children]) _ h) (forall₂_imp hs fun c hc _ hR => hR.imp fun z hz => ?_)
      (optionRel_imp h' fun z hz => hRS z ?_) (optionRel_imp h'' fun z hz => hRS z ?_)
    · exact hRS z (by simp only [Form.children, List.mem_cons, List.mem_append, List.mem_flatMap]; grind)
    · simp [Form.children, hz]
    · simp [Form.children, hz]
  | jump h => exact .jump (optionRel_imp h hRS)

theorem Form.Rel.mono {f : Form α} {g : Form β} (h : Form.Rel R f g) (hRS : ∀ x y, R x y → S x y) :
    Form.Rel S f g :=
  h.imp fun x _ => hRS x

end Weakening

/-! ### Relations turned around and joined -/

section Joining

variable {α β γ : Type} {R : α → β → Prop} {S : β → γ → Prop} {T : α → γ → Prop}

theorem optionRel_flip {a : Option α} {b : Option β} (h : Option.Rel R a b) : Option.Rel (fun y x => R x y) b a := by
  cases h with
  | none => exact .none
  | some h => exact .some h

theorem optionRel_trans {a : Option α} {b : Option β} {c : Option γ} (h : Option.Rel R a b) (h' : Option.Rel S b c)
    (hT : ∀ x ∈ a, ∀ y z, R x y → S y z → T x z) : Option.Rel T a c := by
  cases h with
  | none => cases h' with | none => exact .none
  | some h => cases h' with | some h' => exact .some (hT _ rfl _ _ h h')

theorem forall₂_trans {as : List α} {bs : List β} {cs : List γ} (h : List.Forall₂ R as bs) (h' : List.Forall₂ S bs cs)
    (hT : ∀ x ∈ as, ∀ y z, R x y → S y z → T x z) : List.Forall₂ T as cs := by
  induction h generalizing cs with
  | nil => cases h'; exact .nil
  | cons h _ ih =>
    cases h' with
    | cons h₁ h₂ =>
      exact .cons (hT _ List.mem_cons_self _ _ h h₁) (ih h₂ fun x hx => hT x (List.mem_cons_of_mem _ hx))

end Joining

/-! ### Mapped forms -/

section Mapping

variable {α β γ δ : Type} {R : β → δ → Prop} {h : α → β} {k : γ → δ}

theorem optionRel_map {a : Option α} {b : Option γ} (H : Option.Rel (fun x y => R (h x) (k y)) a b) :
    Option.Rel R (a.map h) (b.map k) := by
  cases H with
  | none => exact .none
  | some H => exact .some H

theorem forall₂_map {as : List α} {bs : List γ} (H : List.Forall₂ (fun x y => R (h x) (k y)) as bs) :
    List.Forall₂ R (as.map h) (bs.map k) :=
  List.forall₂_map_left_iff.2 (List.forall₂_map_right_iff.2 H)

/-- A relation of mapped sub-expressions relates the mapped forms. -/
theorem Form.Rel.map {f : Form α} {g : Form γ} (H : Form.Rel (fun x y => R (h x) (k y)) f g) :
    Form.Rel R (f.map h) (g.map k) := by
  cases H with
  | constant v => exact .constant v
  | var x => exact .var x
  | defaultOf => exact .defaultOf
  | convert H => exact .convert H
  | call H Hs => exact .call (optionRel_map H) (forall₂_map Hs)
  | access H => exact .access (optionRel_map H)
  | new Hs => exact .new (forall₂_map Hs)
  | newArray Hs => exact .newArray (forall₂_map Hs)
  | index H Hs => exact .index H (forall₂_map Hs)
  | invoke H Hs => exact .invoke H (forall₂_map Hs)
  | lambda H => exact .lambda H
  | conditional H H' H'' => exact .conditional H H' H''
  | logical H H' => exact .logical H H'
  | switch H Hs H' =>
    refine .switch H (forall₂_map (Hs.imp fun _ _ Hc => ?_)) (optionRel_map H')
    exact ⟨forall₂_map Hc.tests, Hc.body⟩
  | typeTest H => exact .typeTest H
  | throw H => exact .throw (optionRel_map H)
  | block Hs => exact .block (forall₂_map Hs)
  | tryCatch H Hs H' H'' =>
    refine .tryCatch H (forall₂_map (Hs.imp fun _ _ Hc => ?_)) (optionRel_map H') (optionRel_map H'')
    exact ⟨Hc.test, Hc.binding, optionRel_map Hc.filter, Hc.body⟩
  | jump H => exact .jump (optionRel_map H)

@[simp] theorem Form.map_id (f : Form α) : f.map id = f := by
  cases f <;> simp [Form.map, Case.map, Clause.map]

theorem Form.Rel.map_left {f : Form α} {g : Form δ} (H : Form.Rel (fun x y => R (h x) y) f g) :
    Form.Rel R (f.map h) g := by
  have := Form.Rel.map (k := id) H
  rwa [Form.map_id] at this

end Mapping

/-! ### Forms that differ in the identities of clauses only -/

section Equality

variable {α β : Type} {R : α → β → Prop}

theorem optionRel_eq {a b : Option β} (h : Option.Rel (· = ·) a b) : a = b := by
  cases h with
  | none => rfl
  | some h => rw [h]

theorem Case.Rel.eq {c d : Case β} (h : Case.Rel (· = ·) c d) : c = d := by
  cases c; cases d
  obtain ⟨ht, hb⟩ := h
  rw [List.forall₂_eq_eq_eq] at ht
  cases ht
  cases hb
  rfl

theorem Clause.Rel.trans_eq {c : Clause α} {d d' : Clause β} (h : Clause.Rel R c d)
    (h' : Clause.Rel (· = ·) d d') : Clause.Rel R c d' where
  test := h.test.trans h'.test
  binding := h.binding.trans h'.binding
  filter := optionRel_eq h'.filter ▸ h.filter
  body := h'.body ▸ h.body

/-- A relation between forms goes on to a form that differs in the identities of clauses only. -/
theorem Form.Rel.trans_eq {f : Form α} {g g' : Form β} (h : Form.Rel R f g) (h' : Form.Rel (· = ·) g g') :
    Form.Rel R f g' := by
  cases h' with
  | tryCatch h₁ hs h₂ h₃ =>
    cases h₁
    cases optionRel_eq h₂
    cases optionRel_eq h₃
    cases h with
    | tryCatch h hs' h₂ h₃ =>
      exact .tryCatch h (forall₂_trans hs' hs fun _ _ _ _ => Clause.Rel.trans_eq) h₂ h₃
  | switch h₁ hs h₂ =>
    cases h₁
    cases optionRel_eq h₂
    have hcases := hs.imp fun _ _ => Case.Rel.eq
    rw [List.forall₂_eq_eq_eq] at hcases
    cases hcases
    exact h
  | constant | var | defaultOf => exact h
  | convert h₁ | lambda h₁ | typeTest h₁ => cases h₁; exact h
  | call h₁ hs => cases optionRel_eq h₁; rw [List.forall₂_eq_eq_eq] at hs; cases hs; exact h
  | access h₁ | throw h₁ | jump h₁ => cases optionRel_eq h₁; exact h
  | new hs | newArray hs | block hs => rw [List.forall₂_eq_eq_eq] at hs; cases hs; exact h
  | index h₁ hs | invoke h₁ hs => cases h₁; rw [List.forall₂_eq_eq_eq] at hs; cases hs; exact h
  | conditional h₁ h₂ h₃ => cases h₁; cases h₂; cases h₃; exact h
  | logical h₁ h₂ => cases h₁; cases h₂; exact h

theorem optionRel_of_eq {a b : Option β} (h : a = b) : Option.Rel (· = ·) a b := by
  subst h
  cases a with
  | none => exact .none
  | some b => exact .some rfl

theorem Form.Rel.refl (f : Form β) : Form.Rel (· = ·) f f := by
  cases f with
  | switch =>
    exact .switch rfl (List.forall₂_same.2 fun _ _ => ⟨List.forall₂_refl _, rfl⟩) (optionRel_of_eq rfl)
  | tryCatch =>
    exact .tryCatch rfl (List.forall₂_same.2 fun _ _ => ⟨rfl, rfl, optionRel_of_eq rfl, rfl⟩) (optionRel_of_eq rfl)
      (optionRel_of_eq rfl)
  | constant | var | defaultOf => constructor
  | convert | lambda | typeTest => constructor; rfl
  | call => exact .call (optionRel_of_eq rfl) (List.forall₂_refl _)
  | access | throw | jump => constructor; exact optionRel_of_eq rfl
  | new | newArray | block => constructor; exact List.forall₂_refl _
  | index => exact .index rfl (List.forall₂_refl _)
  | invoke => exact .invoke rfl (List.forall₂_refl _)
  | conditional => exact .conditional rfl rfl rfl
  | logical => exact .logical rfl rfl

variable {S : β → β → Prop}

theorem toList_inj {a b : Option β} (h : a.toList = b.toList) : a = b := by
  cases a <;> cases b <;> simp_all

theorem optionRel_length {a b : Option β} (h : Option.Rel S a b) : a.toList.length = b.toList.length :=
  (forall₂_toList h).length_eq

/-- Parts of the same shape with the same sub-expressions are equal. -/
theorem parts_eq {ι : Type} {S : ι → ι → Prop} {T : ι → ι → Prop} {children : ι → List β} {is js : List ι}
    (h : List.Forall₂ S is js) (hlen : ∀ i j, S i j → (children i).length = (children j).length)
    (hT : ∀ i j, S i j → children i = children j → T j i)
    (hc : is.flatMap children = js.flatMap children) : List.Forall₂ T js is := by
  induction h with
  | nil => exact .nil
  | cons h _ ih =>
    obtain ⟨h₁, h₂⟩ := List.append_inj hc (hlen _ _ h)
    exact .cons (hT _ _ h h₁) (ih h₂)

theorem parts_length {ι : Type} {S : ι → ι → Prop} {children : ι → List β} {is js : List ι}
    (h : List.Forall₂ S is js) (hlen : ∀ i j, S i j → (children i).length = (children j).length) :
    (is.flatMap children).length = (js.flatMap children).length := by
  induction h with
  | nil => rfl
  | cons h _ ih => simp only [List.flatMap_cons, List.length_append, hlen _ _ h, ih]

theorem Case.Rel.eq_of_children {c d : Case β} (h : Case.Rel S c d) (hc : c.children = d.children) :
    Case.Rel (· = ·) d c := by
  obtain ⟨h₁, h₂⟩ := List.append_inj hc h.tests.length_eq
  exact ⟨List.forall₂_eq_eq_eq ▸ h₁.symm, (List.cons.inj h₂).1.symm⟩

theorem Clause.Rel.eq_of_children {c d : Clause β} (h : Clause.Rel S c d) (hc : c.children = d.children) :
    Clause.Rel (· = ·) d c := by
  obtain ⟨h₁, h₂⟩ := List.append_inj hc (optionRel_length h.filter)
  exact ⟨h.test.symm, h.binding.symm, optionRel_of_eq (toList_inj h₁).symm, (List.cons.inj h₂).1.symm⟩

/-- Forms of the same shape with the same sub-expressions differ in the identities of clauses only. -/
theorem Form.Rel.eq_of_children {f g : Form β} (h : Form.Rel S f g) (hc : f.children = g.children) :
    Form.Rel (· = ·) g f := by
  have hlen : ∀ c d, Case.Rel S c d → c.children.length = d.children.length := fun _ _ h => h.children.length_eq
  have hlen' : ∀ c d, Clause.Rel S c d → c.children.length = d.children.length :=
    fun _ _ h => h.children.length_eq
  cases h with
  | constant v => exact .constant v
  | var x => exact .var x
  | defaultOf => exact .defaultOf
  | convert | lambda | typeTest => cases hc; constructor; rfl
  | call h hs =>
    obtain ⟨h₁, h₂⟩ := List.append_inj hc (optionRel_length h)
    exact .call (optionRel_of_eq (toList_inj h₁).symm) (List.forall₂_eq_eq_eq ▸ h₂.symm)
  | access | throw | jump => constructor; exact optionRel_of_eq (toList_inj hc).symm
  | new | newArray | block => constructor; exact List.forall₂_eq_eq_eq ▸ hc.symm
  | index | invoke =>
    obtain ⟨h₁, h₂⟩ := List.cons.inj hc
    constructor
    · exact h₁.symm
    · exact List.forall₂_eq_eq_eq ▸ h₂.symm
  | conditional => cases hc; exact .conditional rfl rfl rfl
  | logical => cases hc; exact .logical rfl rfl
  | switch h hs h' =>
    obtain ⟨h₁, h₂⟩ := List.cons.inj hc
    obtain ⟨h₃, h₄⟩ := List.append_inj h₂ (parts_length hs hlen)
    exact .switch h₁.symm (parts_eq hs hlen (fun _ _ => Case.Rel.eq_of_children) h₃)
      (optionRel_of_eq (toList_inj h₄).symm)
  | tryCatch h hs h' h'' =>
    obtain ⟨h₁, h₂⟩ := List.append_inj' hc (optionRel_length h'')
    obtain ⟨h₃, h₄⟩ := List.append_inj' h₁ (optionRel_length h')
    obtain ⟨h₅, h₆⟩ := List.cons.inj h₃
    exact .tryCatch h₅.symm (parts_eq hs hlen' (fun _ _ => Clause.Rel.eq_of_children) h₆)
      (optionRel_of_eq (toList_inj h₄).symm) (optionRel_of_eq (toList_inj h₂).symm)

end Equality

/-! ### Mapping alike -/

section Alike

variable {α β : Type} {f g : α → β}

theorem optionMap_congr (a : Option α) (h : ∀ b ∈ a.toList, f b = g b) : a.map f = a.map g :=
  Option.map_congr fun b hb => h b (Option.mem_toList.2 hb)

theorem Case.map_congr (c : Case α) (h : ∀ a ∈ c.children, f a = g a) : c.map f = c.map g := by
  simp only [Case.children, List.forall_mem_append, List.forall_mem_singleton] at h
  simp only [Case.map, List.map_congr_left h.1, h.2]

theorem Clause.map_congr (c : Clause α) (h : ∀ a ∈ c.children, f a = g a) : c.map f = c.map g := by
  simp only [Clause.children, List.forall_mem_append, List.forall_mem_singleton] at h
  simp only [Clause.map, optionMap_congr _ h.1, h.2]

/-- Functions that agree on the sub-expressions of a form map it alike. -/
theorem Form.map_congr (form : Form α) (h : ∀ a ∈ form.children, f a = g a) : form.map f = form.map g := by
  cases form with
  | switch value comparison cases fallback =>
    simp only [Form.children, List.cons_append, List.forall_mem_cons, List.forall_mem_append] at h
    have hcases : cases.map (Case.map f) = cases.map (Case.map g) :=
      List.map_congr_left fun c hc => c.map_congr fun a ha => h.2.1 a (List.mem_flatMap_of_mem hc ha)
    simp only [Form.map, h.1, hcases, optionMap_congr _ h.2.2]
  | tryCatch body clauses cleanup onFault =>
    simp only [Form.children, List.cons_append, List.forall_mem_cons, List.forall_mem_append] at h
    have hclauses : clauses.map (Clause.map f) = clauses.map (Clause.map g) :=
      List.map_congr_left fun c hc => c.map_congr fun a ha => h.2.1.1 a (List.mem_flatMap_of_mem hc ha)
    simp only [Form.map, h.1, hclauses, optionMap_congr _ h.2.1.2, optionMap_congr _ h.2.2]
  | call receiver method args =>
    simp only [Form.children, List.forall_mem_append] at h
    simp only [Form.map, optionMap_congr _ h.1, List.map_congr_left h.2]
  | access receiver member => simp only [Form.map, optionMap_congr _ h]
  | throw exception => simp only [Form.map, optionMap_congr _ h]
  | jump kind target value => simp only [Form.map, optionMap_congr _ h]
  | _ => simp_all [Form.children, Form.map]

end Alike

/-! ### Mapping in order, after mapping -/

section MapM

variable {α β γ : Type} {m : Type → Type} [Monad m] {h : α → β} {f : β → m γ}

theorem optionMapM_map (a : Option α) : (a.map h).mapM f = a.mapM (f ∘ h) := by
  cases a <;> simp

variable [LawfulMonad m]

theorem Case.mapM_map (c : Case α) : (c.map h).mapM f = c.mapM (f ∘ h) := by
  simp [Case.mapM, Case.map]

theorem Clause.mapM_map (c : Clause α) : (c.map h).mapM f = c.mapM (f ∘ h) := by
  simp [Clause.mapM, Clause.map, optionMapM_map]

theorem Form.mapM_map (form : Form α) : (form.map h).mapM f = form.mapM (f ∘ h) := by
  cases form <;>
    simp [Form.mapM, Form.map, optionMapM_map, Function.comp_def, Case.mapM_map, Clause.mapM_map]

end MapM

/-! ### Mapping in order, as a list -/

section Order

variable {α β : Type} {m : Type → Type} [Monad m] [LawfulMonad m] (f : α → m β)

theorem toList_mapM (a : Option α) : Option.toList <$> a.mapM f = a.toList.mapM f := by
  cases a <;> simp

theorem Case.children_mapM (c : Case α) : Case.children <$> c.mapM f = c.children.mapM f := by
  simp [Case.mapM, Case.children, List.mapM_append]

theorem Clause.children_mapM (c : Clause α) : Clause.children <$> c.mapM f = c.children.mapM f := by
  simp [Clause.mapM, Clause.children, List.mapM_append, ← toList_mapM]

theorem flatMap_mapM {ι κ : Type} {g : ι → m κ} {children : ι → List α} {children' : κ → List β}
    (h : ∀ i, children' <$> g i = (children i).mapM f) (is : List ι) :
    List.flatMap children' <$> is.mapM g = (is.flatMap children).mapM f := by
  induction is with
  | nil => simp
  | cons i is ih =>
    rw [List.flatMap_cons, List.mapM_append, ← h, ← ih]
    simp [List.flatMap_cons]

/-- Mapping a form maps the list of its sub-expressions, in order. -/
theorem Form.children_mapM (form : Form α) : Form.children <$> form.mapM f = form.children.mapM f := by
  cases form with
  | switch =>
    simp [Form.mapM, Form.children, List.mapM_append, ← toList_mapM, ← flatMap_mapM f (Case.children_mapM f)]
  | tryCatch =>
    simp [Form.mapM, Form.children, List.mapM_append, ← toList_mapM, ← flatMap_mapM f (Clause.children_mapM f)]
  | _ => simp [Form.mapM, Form.children, List.mapM_append, ← toList_mapM]

end Order

/-! ### Mapping in order, in another monad -/

section Hom

variable {α β : Type} {m n : Type → Type} [Monad m] [Monad n] [LawfulMonad m] [LawfulMonad n] (φ : {γ : Type} → m γ → n γ)
  (hpure : ∀ {γ : Type} (c : γ), φ (pure c) = pure c)
  (hbind : ∀ {γ δ : Type} (x : m γ) (g : γ → m δ), φ (x >>= g) = φ x >>= fun c => φ (g c)) (f : α → m β)

include hpure hbind

theorem optionMapM_hom (a : Option α) : φ (a.mapM f) = a.mapM fun b => φ (f b) := by
  cases a with
  | none => exact hpure none
  | some a => simp only [Option.mapM_some, ← bind_pure_comp, hbind, hpure]

theorem listMapM_hom (as : List α) : φ (as.mapM f) = as.mapM fun a => φ (f a) := by
  induction as with
  | nil => simp only [List.mapM_nil, hpure]
  | cons a as ih => simp only [List.mapM_cons, hbind, hpure, ih]

theorem Case.mapM_hom (c : Case α) : φ (c.mapM f) = c.mapM fun a => φ (f a) := by
  simp only [Case.mapM, hbind, hpure, listMapM_hom φ hpure hbind]

theorem Clause.mapM_hom (c : Clause α) : φ (c.mapM f) = c.mapM fun a => φ (f a) := by
  simp only [Clause.mapM, hbind, hpure, optionMapM_hom φ hpure hbind]

/-- A map between monads that keeps results and sequences keeps the mapping of forms. -/
theorem Form.mapM_hom (form : Form α) : φ (form.mapM f) = form.mapM fun a => φ (f a) := by
  cases form <;>
    simp only [Form.mapM, hbind, hpure, optionMapM_hom φ hpure hbind, listMapM_hom φ hpure hbind,
      Case.mapM_hom φ hpure hbind, Clause.mapM_hom φ hpure hbind]

end Hom

end TypedTree
