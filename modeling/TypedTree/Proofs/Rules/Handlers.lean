import TypedTree.Proofs.Rules.Basic

/-!
# Rules for handlers

Clauses are simplified or dropped (`Optimizer.Simplified`), and a body that needs no handlers takes the place of the whole. A
clause with nothing to simplify stays the very clause it is (`Optimizer.Stable`).
-/

namespace TypedTree.Optimizer

open Store

variable {σ κ : Type} {o : Optimizer σ κ} {E : Halt → Prop} {st : Store} {cx : Context} {n : Expr}
variable (hE : ∀ fault, E (.fault fault))

/-- There is nothing to simplify in the clause. -/
structure Stable (o : Optimizer σ κ) (c : Clause Expr) : Prop where
  binding : hasUnusedBinding c = false
  filter : c.filter.any o.facts.isTrue = false
  alive : o.isDead c = false

theorem Stable.simplifyClause {c : Clause Expr} (h : o.Stable c) : o.simplifyClause c = pure (some c) := by
  simp [Optimizer.simplifyClause, dropBinding, dropFilter, h.binding, h.filter, h.alive]

theorem simplifyClauses_stable {cs : List (Clause Expr)} (h : ∀ c ∈ cs, o.Stable c) :
    o.simplifyClauses cs = pure cs := by
  have hmap : cs.mapM o.simplifyClause = pure (cs.map some) := by
    induction cs with
    | nil => simp
    | cons c cs ih =>
      simp [(h c List.mem_cons_self).simplifyClause, ih fun d hd => h d (List.mem_cons_of_mem _ hd)]
  simp [simplifyClauses, hmap, List.filterMap_map]

/-- `d` exists and is `c` simplified; if it existed before, then there was nothing to simplify. -/
structure Simplifies (o : Optimizer σ κ) (st₀ : Store) (c : Clause Expr) (st : Store) (d : Clause Expr) : Prop where
  mem : d ∈ st.clauses
  simplified : o.Simplified d c
  stable : d ∈ st₀.clauses → d = c ∧ o.Stable c

theorem dropBinding_reaches {c : Clause Expr} (hc : c ∈ st.clauses) :
    (o.logic E).reaches st (dropBinding c) fun st' d => d ∈ st'.clauses ∧ d.test = c.test ∧ d.body = c.body ∧
      d.filter = c.filter ∧ d.binding = (if hasUnusedBinding c then none else c.binding) ∧
      (d ∈ st.clauses → d = c ∧ hasUnusedBinding c = false) := by
  unfold dropBinding
  split
  · next h =>
    refine (o.logic E).ofBind (Run.reaches_fresh Clause.make_reaches) ?_
    rintro st₁ _ d ⟨hd, hnew, ht, hb, hf, hbody⟩
    refine (o.logic E).ofBind Run.reaches_record fun st₂ hst₂ _ _ => ?_
    exact (o.logic E).ofPure fun _ hk => ⟨clause_mem_of_le (hst₂.trans hk) hd, ht, hbody, hf, hb, fun h => absurd h hnew⟩
  · next h =>
    have h : hasUnusedBinding c = false := by simpa using h
    exact (o.logic E).ofPure fun _ hk => ⟨clause_mem_of_le hk hc, rfl, rfl, rfl, rfl, fun _ => ⟨rfl, h⟩⟩

theorem dropFilter_reaches {c : Clause Expr} (hc : c ∈ st.clauses) :
    (o.logic E).reaches st (o.dropFilter c) fun st' d => d ∈ st'.clauses ∧ d.test = c.test ∧ d.body = c.body ∧
      d.binding = c.binding ∧ d.filter = (if c.filter.any o.facts.isTrue then none else c.filter) ∧
      (d ∈ st.clauses → d = c ∧ c.filter.any o.facts.isTrue = false) := by
  unfold dropFilter
  split
  · next h =>
    have hparts : c.withParts none c.body = Clause.make c.test c.binding none c.body := by
      unfold Clause.withParts
      cases hf : c.filter with
      | none => simp [hf] at h
      | some f => simp [Expr.sameOption]
    rw [hparts]
    refine (o.logic E).ofBind (Run.reaches_fresh Clause.make_reaches) ?_
    rintro st₁ _ d ⟨hd, hnew, ht, hb, hf, hbody⟩
    refine (o.logic E).ofBind Run.reaches_record fun st₂ hst₂ _ _ => ?_
    exact (o.logic E).ofPure fun _ hk => ⟨clause_mem_of_le (hst₂.trans hk) hd, ht, hbody, hb, hf, fun h => absurd h hnew⟩
  · next h =>
    have h : c.filter.any o.facts.isTrue = false := by simpa using h
    exact (o.logic E).ofPure fun _ hk => ⟨clause_mem_of_le hk hc, rfl, rfl, rfl, rfl, fun _ => ⟨rfl, h⟩⟩

theorem simplifyClause_reaches {c : Clause Expr} (hc : c ∈ st.clauses) :
    (o.logic E).reaches st (o.simplifyClause c) fun st' found => ∀ d ∈ found, o.Simplifies st c st' d := by
  refine (o.logic E).ofBind (dropBinding_reaches hc) ?_
  rintro st₁ hst₁ d ⟨hd, htest, hbody, hfilter, hbinding, hold⟩
  refine (o.logic E).ofBind (dropFilter_reaches hd) ?_
  rintro st₂ _ d' ⟨hd', htest', hbody', hbinding', hfilter', hold'⟩
  split
  · exact (o.logic E).ofBind Run.reaches_record fun _ _ _ _ => (o.logic E).ofPure fun _ _ => by simp
  · next h =>
    have halive : o.isDead d' = false := by simpa using h
    refine (o.logic E).ofPure fun _ hk => ?_
    rintro _ ⟨⟩
    refine ⟨clause_mem_of_le hk hd', ⟨htest'.trans htest, hbody'.trans hbody, hbinding'.trans hbinding, ?_, halive⟩, ?_⟩
    · rw [hfilter', hfilter]
    · intro hmem
      obtain ⟨rfl, hf⟩ := hold' (clause_mem_of_le hst₁ hmem)
      obtain ⟨rfl, hb⟩ := hold hmem
      exact ⟨rfl, hb, hf, halive⟩

/-- When as many are found as are looked for, each is found. -/
theorem forall_of_length_filterMap {α β : Type} {P : α → Prop} {Q : β → Prop} {as : List α} {founds : List (Option β)}
    (h : List.Forall₂ (fun a found => ∀ b ∈ found, Q b → P a) as founds) (hQ : ∀ b, some b ∈ founds → Q b)
    (hlen : (founds.filterMap id).length = as.length) : ∀ a ∈ as, P a := by
  induction h with
  | nil => simp
  | @cons a found as founds hP hs ih =>
    have hle : (founds.filterMap id).length ≤ as.length := by
      rw [hs.length_eq]
      exact List.length_filterMap_le _ _
    cases found with
    | none =>
      rw [List.filterMap_cons_none rfl, List.length_cons] at hlen
      omega
    | some b =>
      have hlen : (founds.filterMap id).length = as.length := Nat.succ.inj hlen
      have hrest := ih (fun c hc => hQ c (List.mem_cons_of_mem _ hc)) hlen
      simpa using ⟨hP b rfl (hQ b List.mem_cons_self), hrest⟩

/-- What is found stems from some of what was looked for, in order. -/
theorem sublistForall₂_filterMap {α β : Type} {P : β → α → Prop} {as : List α} {founds : List (Option β)}
    (h : List.Forall₂ (fun a found => ∀ b ∈ found, P b a) as founds) :
    List.SublistForall₂ P (founds.filterMap id) as := by
  induction h with
  | nil => exact .nil
  | @cons a found as founds hP _ ih =>
    cases found with
    | none => exact .cons_right ih
    | some b => exact .cons (hP b rfl) ih

theorem exists_of_sublistForall₂ {α β : Type} {P : β → α → Prop} {bs : List β} {as : List α}
    (h : List.SublistForall₂ P bs as) {b : β} (hb : b ∈ bs) : ∃ a ∈ as, P b a := by
  induction h with
  | nil => cases hb
  | cons hP _ ih =>
    obtain rfl | hb := List.mem_cons.1 hb
    · exact ⟨_, List.mem_cons_self, hP⟩
    · obtain ⟨a, ha, h⟩ := ih hb
      exact ⟨a, List.mem_cons_of_mem _ ha, h⟩
  | cons_right _ ih =>
    obtain ⟨a, ha, h⟩ := ih hb
    exact ⟨a, List.mem_cons_of_mem _ ha, h⟩

theorem simplifyClauses_reaches {cs : List (Clause Expr)} (hcs : ∀ c ∈ cs, c ∈ st.clauses) :
    (o.logic E).reaches st (o.simplifyClauses cs) fun st' kept => (∀ d ∈ kept, d ∈ st'.clauses) ∧
      List.SublistForall₂ o.Simplified kept cs ∧ (kept.map (·.id) = cs.map (·.id) → ∀ c ∈ cs, o.Stable c) := by
  let R : Store → Clause Expr → Option (Clause Expr) → Prop := fun st' c found => ∀ d ∈ found, o.Simplifies st c st' d
  have hR : Lasting R := fun _ _ hk _ _ h d hd =>
    ⟨clause_mem_of_le hk (h d hd).mem, (h d hd).simplified, (h d hd).stable⟩
  refine (o.logic E).ofBind ((o.logic E).mapM_list hR (k := st) ?_) fun st₁ hst₁ founds hfounds => ?_
  · exact fun c hc st₁ hst₁ => (o.logic E).ofImp (simplifyClause_reaches (clause_mem_of_le hst₁ (hcs c hc)))
      fun _ _ found h d hd => ⟨(h d hd).mem, (h d hd).simplified, fun hmem => (h d hd).stable (clause_mem_of_le hst₁ hmem)⟩
  have hmem : ∀ d ∈ founds.filterMap id, d ∈ st₁.clauses := by
    intro d hd
    obtain ⟨found, hfound, heq⟩ := List.mem_filterMap.1 hd
    obtain ⟨c, _, h⟩ := exists_left_of_forall₂ hfounds hfound
    exact (h d heq).mem
  refine (o.logic E).ofPure fun _ hk => ⟨fun d hd => clause_mem_of_le hk (hmem d hd), ?_, fun hids => ?_⟩
  · exact sublistForall₂_filterMap (hfounds.imp fun c found h d hd => (h d hd).simplified)
  · -- A clause with the identity of an old one is an old one, so nothing was simplified in it.
    have hold : ∀ d, some d ∈ founds → d ∈ st.clauses := by
      intro d hd
      have hd : d ∈ founds.filterMap id := List.mem_filterMap.2 ⟨_, hd, rfl⟩
      have hid : d.id ∈ cs.map (·.id) := hids ▸ List.mem_map_of_mem hd
      obtain ⟨c, hc, hcd⟩ := List.mem_map.1 hid
      rw [← st₁.clause_eq_of_id (clause_mem_of_le hst₁ (hcs c hc)) (hmem d hd) hcd]
      exact hcs c hc
    refine forall_of_length_filterMap (hfounds.imp fun c found h d hd hmem => ?_) hold ?_
    · exact ((h d hd).stable hmem).2
    · simpa using congrArg List.length hids

theorem tryCatch_stable {body : Expr} {clauses : List (Clause Expr)} {cleanup onFault : Option Expr}
    (hstable : ∀ c ∈ clauses, o.Stable c) (hcollapse : o.collapses body clauses cleanup onFault = false) :
    o.tryCatch n body clauses cleanup onFault = pure n := by
  rw [collapses] at hcollapse
  rw [tryCatch, simplifyClauses_stable hstable, pure_bind, if_neg (by rw [hcollapse]; exact Bool.false_ne_true),
    if_pos (by simp)]

theorem Simplified.children {c d : Clause Expr} (h : o.Simplified d c) {e : Expr} (he : e ∈ d.children) :
    e ∈ c.children := by
  simp only [Clause.children, h.body, h.filter, List.mem_append] at he ⊢
  obtain he | he := he
  · refine .inl ?_
    split at he
    · cases he
    · exact he
  · exact .inr he

theorem mem_children_of_simplified {body : Expr} {clauses kept : List (Clause Expr)} {cleanup onFault : Option Expr}
    (h : List.SublistForall₂ o.Simplified kept clauses) {e : Expr}
    (he : e ∈ (Form.tryCatch body kept cleanup onFault).children) :
    e ∈ (Form.tryCatch body clauses cleanup onFault).children := by
  simp only [Form.children, List.mem_cons, List.mem_append, List.mem_flatMap] at he ⊢
  obtain ((rfl | ⟨d, hd, he⟩) | he) | he := he
  · exact .inl (.inl (.inl rfl))
  · obtain ⟨c, hc, h⟩ := exists_of_sublistForall₂ h hd
    exact .inl (.inl (.inr ⟨c, hc, h.children he⟩))
  · exact .inl (.inr he)
  · exact .inr he

include hE

theorem tryCatch_reaches (hn : n ∈ st) {body : Expr} {clauses : List (Clause Expr)} {cleanup onFault : Option Expr}
    (hform : n.form = .tryCatch body clauses cleanup onFault)
    (hrule : ∀ again, o.rule again n cx = o.tryCatch n body clauses cleanup onFault) :
    (o.logic E).reaches st (o.tryCatch n body clauses cleanup onFault) (o.Settles cx n) := by
  have hcs : ∀ c ∈ clauses, c ∈ st.clauses := fun c hc => st.clauses_mem hn (by rw [hform]; exact hc)
  have hmem : ∀ {e}, e ∈ (Form.tryCatch body clauses cleanup onFault).children → e ∈ st :=
    fun he => child hn (by rw [hform]; exact he)
  unfold tryCatch
  refine (o.logic E).ofBind (simplifyClauses_reaches hcs) ?_
  rintro st₁ hst₁ kept ⟨hkept, hsimplified, hstable⟩
  split
  · next h =>
    simp only [Bool.and_eq_true, Option.isNone_iff_eq_none] at h
    have hbare : n.form = .tryCatch body clauses none onFault := by rw [hform, h.1.2]
    exact takeBranch_reaches hE (mem_of_le hst₁ (hmem (by simp [Form.children]))) (.body hbare)
  next h =>
  have hcollapse : o.collapses body kept cleanup onFault = false := Bool.eq_false_of_not_eq_true h
  split
  · next hids =>
    have hids : kept.map (·.id) = clauses.map (·.id) := by simpa using hids
    have hstable := hstable hids
    have hempty : kept.isEmpty = clauses.isEmpty := by
      simpa using congrArg List.isEmpty hids
    refine reaches_kept (mem_of_le hst₁ hn) fun _ => quiet_of_pure fun again => (hrule again).trans ?_
    exact tryCatch_stable hstable (by rw [collapses, ← hempty]; exact hcollapse)
  · next hids =>
    have hparts : ∀ e ∈ (Form.tryCatch body kept cleanup onFault).children, e ∈ st₁ :=
      fun e he => mem_of_le hst₁ (hmem (mem_children_of_simplified hsimplified he))
    refine (o.logic E).ofImp (Run.reaches_fresh (Expr.make_reaches hparts hkept)) ?_
    rintro _ _ r ⟨hr, _, hty, hf⟩
    exact ⟨hr, .simplified hform hsimplified hcollapse hty hf⟩

end TypedTree.Optimizer
