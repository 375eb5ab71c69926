import TypedTree.Proofs.Folds

/-!
# Where values that are shared may go

A value that can be changed is folded to a constant, and so shared by all evaluations, only in a context that is said to be
read-only. A context says nothing of how the value gets to the parameter that is only read. This is what a route says
(`Route`): the places of the nodes from an expression up to the root. The context of a visit is a function of the route
(`Optimizer.visit_eq_visitAlong`), also after inlining, and it is read-only exactly when a read-only argument is reached through
places that inherit their context (`Route.readOnly_iff`).

The bodies of function literals do not inherit it. But what is thrown, what a jump takes along and what is passed to the
comparison of a switch does, and these never reach the parameter (`Route.fate`). So `mutable_folds_escape_iff` says where a
value that can be changed is shared, and when it then goes somewhere else.
-/

namespace TypedTree

/-! ### Places -/

/-- Where a sub-expression stands, as far as it matters for what becomes of its value. -/
inductive Place where
  /-- It is an argument, which the member only reads, or may keep. -/
  | argument (readOnly : Bool)
  /-- It is another operand: a receiver, an item of an array, or a part of an invocation. -/
  | operand
  /-- It is the body of a function literal. -/
  | body
  /-- Its value is that of the whole. -/
  | result
  /-- Its value is only looked at. -/
  | inspected
  /-- Its value is dropped. -/
  | dropped
  /-- Its value is passed to the comparison of a switch. -/
  | compared
  /-- Its value is thrown. -/
  | raised
  /-- Its value is taken along by a jump. -/
  | carried
deriving DecidableEq, Repr

/-- The context of a place in a whole that stands in the context `outer`. -/
def Place.context (outer : Context) : Place → Context
  | argument readOnly => ⟨readOnly⟩
  | operand | body => .plain
  | result | inspected | dropped | compared | raised | carried => outer

/-- The place has the context of the whole. -/
def Place.inherits : Place → Bool
  | argument _ | operand | body => false
  | result | inspected | dropped | compared | raised | carried => true

/-- The value goes to someone who may keep it, without being the value of the whole. -/
def Place.escapes : Place → Bool
  | compared | raised | carried => true
  | _ => false

namespace Facts

variable (facts : Facts) {α β : Type}

/-- Arguments with their places. -/
def argPlaces (member : Option Member) (args : List α) : List (α × Place) :=
  (facts.argContexts member args).map fun p => (p.1, .argument p.2.readOnly)

/-- Every sub-expression of a form, paired with its place. -/
def placed : Form α → Form (α × Place)
  | .constant value => .constant value
  | .var x => .var x
  | .defaultOf => .defaultOf
  | .convert operand => .convert (operand, .result)
  | .call receiver method args => .call (receiver.map (·, .operand)) method (facts.argPlaces (some method) args)
  | .access receiver member => .access (receiver.map (·, .operand)) member
  | .new constructor args => .new constructor (facts.argPlaces constructor args)
  | .newArray element source items => .newArray element source (items.map (·, .operand))
  | .index receiver indexer args assigned =>
    .index (receiver, .operand) indexer (facts.argPlaces indexer args) assigned
  | .invoke callee args => .invoke (callee, .operand) (args.map (·, .operand))
  | .lambda params body => .lambda params (body, .body)
  | .conditional test whenTrue whenFalse => .conditional (test, .inspected) (whenTrue, .result) (whenFalse, .result)
  | .logical op left right => .logical op (left, .result) (right, .result)
  | .switch value comparison cases fallback =>
    let tested := if comparison.isSome then Place.compared else .inspected
    .switch (value, tested) comparison (cases.map fun c => ⟨c.tests.map (·, tested), (c.body, .result)⟩)
      (fallback.map (·, .result))
  | .typeTest operand target mode => .typeTest (operand, .inspected) target mode
  | .throw exception => .throw (exception.map (·, .raised))
  | .block locals body =>
    .block locals (body.zipIdx.map fun p => (p.1, if p.2 + 1 = body.length then Place.result else .dropped))
  | .tryCatch body clauses cleanup onFault =>
    .tryCatch (body, .result)
      (clauses.map fun c => ⟨c.id, c.test, c.binding, c.filter.map (·, .inspected), (c.body, .result)⟩)
      (cleanup.map (·, .dropped)) (onFault.map (·, .dropped))
  | .jump kind target value => .jump kind target (value.map (·, .carried))

theorem argPlaces_map (f : α → β) (member : Option Member) (args : List α) :
    facts.argPlaces member (args.map f) = (facts.argPlaces member args).map fun p => (f p.1, p.2) := by
  simp [argPlaces, argContexts_map, Function.comp_def]

theorem placed_map (f : α → β) (form : Form α) :
    facts.placed (form.map f) = (facts.placed form).map fun p => (f p.1, p.2) := by
  cases form <;>
    simp [placed, Form.map, Case.map, Clause.map, Function.comp_def, argPlaces_map, List.zipIdx_map]

theorem map_fst_argPlaces (member : Option Member) (args : List α) : (facts.argPlaces member args).map (·.1) = args := by
  simp [argPlaces, Function.comp_def, map_fst_argContexts]

theorem map_fst_placed (form : Form α) : (facts.placed form).map (·.1) = form := by
  cases form <;>
    simp [placed, Form.map, Case.map, Clause.map, Function.comp_def, map_fst_argPlaces]

/-- The context of a sub-expression is that of its place. -/
theorem inContext_eq (cx : Context) (form : Form α) :
    facts.inContext cx form = (facts.placed form).map fun p => (p.1, p.2.context cx) := by
  cases form with
  | switch value comparison cases fallback =>
    cases comparison <;> simp [inContext, placed, Form.map, Case.map, Function.comp_def, Place.context]
  | block locals body =>
    have hcontext : ∀ i, (if i + 1 = body.length then Place.result else .dropped).context cx = cx := by
      intro i
      split <;> rfl
    have hfst : (body.zipIdx.map fun p => (p.1, cx)) = body.map (·, cx) := by
      rw [← List.zipIdx_map_fst 0 body, List.map_map]
      simp [Function.comp_def]
    simp [inContext, placed, Form.map, Function.comp_def, hcontext, hfst]
  | _ => simp [inContext, placed, argPlaces, Form.map, Clause.map, Function.comp_def, Place.context]

end Facts

/-! ### Routes -/

/-- The places from an expression up to the root, the innermost first. -/
abbrev Route := List Place

/-- What becomes of a value. -/
inductive Fate where
  /-- It is only read. -/
  | read
  /-- It is dropped. -/
  | dropped
  /-- Someone gets it who may keep it. -/
  | kept
deriving DecidableEq, Repr

namespace Route

/-- The context of an expression at the end of a route. -/
def context : Route → Context
  | [] => .plain
  | p :: outer => p.context (context outer)

/-- What becomes of the value of an expression at the end of a route. The value of a whole tree is given away. -/
def fate : Route → Fate
  | [] => .kept
  | .argument readOnly :: _ => if readOnly then .read else .kept
  | .inspected :: _ => .read
  | .dropped :: _ => .dropped
  | .result :: outer => fate outer
  | .operand :: _ | .body :: _ | .compared :: _ | .raised :: _ | .carried :: _ => .kept

/-- A read-only argument is reached through places that inherit their context. -/
def LeadsToReader (route : Route) : Prop :=
  ∃ inner outer, route = inner ++ .argument true :: outer ∧ ∀ p ∈ inner, p.inherits = true

/-- The value is that of an expression from which it escapes. -/
def Escapes (route : Route) : Prop :=
  ∃ inner p outer, route = inner ++ p :: outer ∧ (∀ q ∈ inner, q = .result) ∧ p.escapes = true

theorem leadsToReader_cons {p : Place} {outer : Route} :
    LeadsToReader (p :: outer) ↔ p = .argument true ∨ p.inherits = true ∧ LeadsToReader outer := by
  constructor
  · rintro ⟨_ | ⟨q, inner⟩, outer', h, hinner⟩
    · cases h
      exact .inl rfl
    · cases h
      obtain ⟨hp, hinner⟩ := List.forall_mem_cons.1 hinner
      exact .inr ⟨hp, inner, outer', rfl, hinner⟩
  · rintro (rfl | ⟨hp, inner, outer', rfl, hinner⟩)
    · exact ⟨[], outer, rfl, List.forall_mem_nil _⟩
    · exact ⟨p :: inner, outer', rfl, List.forall_mem_cons.2 ⟨hp, hinner⟩⟩

theorem escapes_cons {p : Place} {outer : Route} :
    Escapes (p :: outer) ↔ p.escapes = true ∨ p = .result ∧ Escapes outer := by
  constructor
  · rintro ⟨_ | ⟨q, inner⟩, p', outer', h, hinner, hp⟩
    · cases h
      exact .inl hp
    · cases h
      obtain ⟨hq, hinner⟩ := List.forall_mem_cons.1 hinner
      exact .inr ⟨hq, inner, p', outer', rfl, hinner, hp⟩
  · rintro (hp | ⟨rfl, inner, p', outer', rfl, hinner, hp⟩)
    · exact ⟨[], p, outer, rfl, List.forall_mem_nil _, hp⟩
    · exact ⟨.result :: inner, p', outer', rfl, List.forall_mem_cons.2 ⟨rfl, hinner⟩, hp⟩

/-- The context is read-only exactly when the route leads to a read-only argument. -/
theorem readOnly_iff (route : Route) : route.context.readOnly = true ↔ route.LeadsToReader := by
  induction route with
  | nil => simp [context, Context.plain, LeadsToReader]
  | cons p outer ih =>
    rw [leadsToReader_cons, ← ih]
    cases p <;> simp [context, Place.context, Place.inherits, Context.plain]

/-- A value that should go to a read-only argument may be kept exactly when it escapes. -/
theorem kept_iff_escapes {route : Route} (h : route.LeadsToReader) : route.fate = .kept ↔ route.Escapes := by
  induction route with
  | nil =>
    obtain ⟨inner, outer, h, _⟩ := h
    cases inner <;> cases h
  | cons p outer ih =>
    rw [leadsToReader_cons] at h
    rw [escapes_cons]
    cases p with
    | result => simpa [fate, Place.escapes] using ih (by simpa [Place.inherits] using h)
    | argument readOnly =>
      have hread : readOnly = true := by simpa [Place.inherits] using h
      simp [fate, Place.escapes, hread]
    | operand | body => simp [Place.inherits] at h
    | _ => simp [fate, Place.escapes]

end Route

/-! ### Visits along routes -/

namespace Optimizer

variable {σ κ : Type} (o : Optimizer σ κ)

/-- One pass over a tree at the end of a route. Sub-expressions are visited at the end of longer routes, the rules are used in
the context of the route, and `again` visits what inlining made at the end of the same route. -/
def passAlong (again : Expr → Route → Run σ Expr) : Expr → Route → Run σ Expr :=
  Expr.recurse fun e form route => do
    if ← o.hooks.admits e then
      let start ← o.hooks.before e
      let node ←
        if start.same e then do
          let form ← (o.facts.placed form).mapM fun p => p.1.2 (p.2 :: route)
          e.rebuild form
        else do
          let form ← (o.facts.placed start.form).mapM fun p => again p.1 (p.2 :: route)
          start.rebuild form
      o.finish (fun reduced _ => again reduced route) e node route.context
    else return e

/-- Visits a tree at the end of a route; trees that are made on the way are visited in their turn, nested `fuel` times at most,
and `last` visits those that are nested more deeply. -/
def visitAlongWithin (last : Expr → Route → Run σ Expr) : Nat → Expr → Route → Run σ Expr
  | 0 => o.passAlong last
  | fuel + 1 => o.passAlong (visitAlongWithin last fuel)

/-- Visits a tree at the end of a route. -/
def visitAlong (e : Expr) (route : Route) : Run σ Expr :=
  o.visitAlongWithin (fun e route => o.visitAlongWithin (fun _ _ => throw .exhausted) e.lambdaCount e route)
    o.hooks.allowance e route

variable {o} {n : Expr} {cx : Context}

/-- Rules visit what inlining made in the context of the node. -/
theorem rule_congr {again again' : Expr → Context → Run σ Expr} (h : ∀ reduced, again reduced cx = again' reduced cx) :
    o.rule again n cx = o.rule again' n cx := by
  unfold rule
  cases n.form with
  | invoke callee args =>
    show o.invoke again n callee args cx = o.invoke again' n callee args cx
    unfold invoke
    cases callee.form with
    | lambda params body =>
      show o.invokeLiteral again n params body args cx = o.invokeLiteral again' n params body args cx
      simp only [invokeLiteral, h]
    | _ => rfl
  | _ => rfl

theorem passAlong_eq (again : Expr → Route → Run σ Expr) (e : Expr) (route : Route) :
    o.passAlong again e route = do
      if ← o.hooks.admits e then
        let start ← o.hooks.before e
        let node ←
          if start.same e then do
            let form ← (o.facts.placed e.form).mapM fun p => o.passAlong again p.1 (p.2 :: route)
            e.rebuild form
          else do
            let form ← (o.facts.placed start.form).mapM fun p => again p.1 (p.2 :: route)
            start.rebuild form
        o.finish (fun reduced _ => again reduced route) e node route.context
      else return e := by
  have hmap : ((o.facts.placed (e.form.map fun c => (c, o.passAlong again c))).mapM fun p => p.1.2 (p.2 :: route)) =
      (o.facts.placed e.form).mapM fun p => o.passAlong again p.1 (p.2 :: route) := by
    rw [Facts.placed_map, Form.mapM_map]
    rfl
  rw [← hmap]
  conv_lhs => rw [passAlong, Expr.recurse_eq]
  rfl

/-- Visits in the contexts of sub-expressions are visits along their routes. -/
theorem mapM_inContext {visit : Expr → Context → Run σ Expr} {visit' : Expr → Route → Run σ Expr} (route : Route)
    (form : Form Expr) (h : ∀ c ∈ form.children, ∀ route : Route, visit c route.context = visit' c route) :
    ((o.facts.inContext route.context form).mapM fun p => visit p.1 p.2) =
      (o.facts.placed form).mapM fun p => visit' p.1 (p.2 :: route) := by
  have hmem : ∀ p ∈ (o.facts.placed form).children, p.1 ∈ form.children := by
    intro p hp
    rw [← o.facts.map_fst_placed form, Form.children_map]
    exact List.mem_map_of_mem hp
  have hmap : ((o.facts.placed form).map fun p => visit p.1 (p.2.context route.context)) =
      (o.facts.placed form).map fun p => visit' p.1 (p.2 :: route) :=
    Form.map_congr _ fun p hp => h p.1 (hmem p hp) (p.2 :: route)
  have hid : ∀ f : Expr × Place → Run σ Expr, (o.facts.placed form).mapM f = ((o.facts.placed form).map f).mapM id :=
    fun f => (Form.mapM_map (h := f) (f := id) _).symm
  rw [o.facts.inContext_eq, Form.mapM_map, hid, hid]
  exact congrArg (Form.mapM id) hmap

theorem pass_eq_passAlong {again : Expr → Context → Run σ Expr} {again' : Expr → Route → Run σ Expr}
    (h : ∀ e (route : Route), again e route.context = again' e route) (e : Expr) (route : Route) :
    o.pass again e route.context = o.passAlong again' e route := by
  induction e using Expr.inductionOn generalizing route with
  | node e ih =>
    have hfinish : ∀ node, o.finish again e node route.context =
        o.finish (fun reduced _ => again' reduced route) e node route.context := by
      intro node
      have hrule : o.rule again node route.context = o.rule (fun reduced _ => again' reduced route) node route.context :=
        rule_congr fun reduced => h reduced route
      rw [finish, finish, hrule]
    rw [pass_eq, passAlong_eq]
    simp only [mapM_inContext route e.form ih, mapM_inContext route _ fun c _ route => h c route, hfinish]

theorem visitWithin_eq_visitAlongWithin {last : Expr → Context → Run σ Expr} {last' : Expr → Route → Run σ Expr}
    (h : ∀ e (route : Route), last e route.context = last' e route) (fuel : Nat) (e : Expr) (route : Route) :
    o.visitWithin last fuel e route.context = o.visitAlongWithin last' fuel e route := by
  induction fuel generalizing e route with
  | zero => exact pass_eq_passAlong h e route
  | succ fuel ih => exact pass_eq_passAlong ih e route

/-- **Contexts come from routes**: a visit in the context of a route is a visit along the route. -/
theorem visit_eq_visitAlong (e : Expr) (route : Route) : o.visit e route.context = o.visitAlong e route :=
  visitWithin_eq_visitAlongWithin (fun e route => visitWithin_eq_visitAlongWithin (fun _ _ => rfl) e.lambdaCount e route)
    o.hooks.allowance e route

end Optimizer

/-- **Sharing along routes**: visits of a whole tree know of a place what its route says. A context is read-only exactly when a
read-only argument is reached through places that inherit their context; function literals are not among these, but throws and
jumps are. Where a value goes that way, it may be kept exactly when it is thrown, taken along by a jump, or passed to the
comparison of a switch.

A rule other than inlining makes a constant of a type that can be changed only in a read-only context, unless the value was
there before. And it does make one of every new array of constants, wherever the value goes. -/
theorem mutable_folds_escape_iff {σ κ : Type} (catalog : Catalog) (evaluators : Evaluators σ κ) (settings : Settings) :
    let o : Optimizer σ κ := ⟨catalog.facts, evaluators, .none, settings⟩
    (∀ e, o.visit e .plain = o.visitAlong e []) ∧
      ∀ route : Route, (route.context.readOnly = true ↔ route.LeadsToReader) ∧
        (route.LeadsToReader → (route.fate = .kept ↔ route.Escapes)) ∧
        ∀ again n s,
          ((∀ callee args, n.form = .invoke callee args → ∀ params body, callee.form ≠ .lambda params body) →
            ∀ r s' v, o.rule again n route.context s = .ok r s' → r.form = .constant v → catalog.isImmutable r.ty = false →
              r = n ∨ o.HandsOn n v ∨ settings.folding = true ∧ route.LeadsToReader) ∧
          ∀ element items, n.form = .newArray element .items items → (∀ i ∈ items, ∃ v, i.form = .constant v) →
            items.length ≤ settings.arrayLimit → settings.folding = true → route.LeadsToReader →
              ∃ r s' a, o.rule again n route.context s = .ok r s' ∧ r.ty = n.ty ∧ r.form = .constant (.array a) := by
  intro o
  refine ⟨fun e => Optimizer.visit_eq_visitAlong e [], fun route => ⟨route.readOnly_iff, Route.kept_iff_escapes, ?_⟩⟩
  intro again n s
  constructor
  · intro hinvoke r s' v hrun hv hty
    rw [← route.readOnly_iff]
    exact (Optimizer.rule_shares (o := o) rfl hinvoke).of_eq hrun v hv hty
  · intro element items hform hitems hlimit hfolding hroute
    exact Optimizer.rule_newArray (o := o) rfl hform hitems hlimit hfolding (route.readOnly_iff.2 hroute)

/-! ### An array that is returned -/

/-- A new array of one integer. -/
def oneItem : Expr := ⟨.made 1, .array .int 1, .newArray .int .items [⟨.made 0, .int, .constant (.int 1)⟩]⟩

/-- A method that sums the items of an array. -/
def sumOf : Member := ⟨"Sum", .object, .method, true, [⟨"xs", .array .int 1⟩], .int, none⟩

/-- A sum of the items of an array that is returned from the function around it before it is summed. -/
def sumOfReturned : Expr :=
  ⟨.made 3, .int, .call none sumOf [⟨.made 2, .array .int 1, .jump .returning ⟨0, "out", .array .int 1⟩ (some oneItem)⟩]⟩

/-- The array is shared in the jump, where its fate is to be kept. -/
theorem mutable_folds_escape_iff_oneItem :
    let route : Route := [.carried, .argument true]
    let s : Progress Console := ⟨⟨4⟩, ⟨⟨0⟩, .empty⟩, .empty⟩
    route.LeadsToReader ∧ route.Escapes ∧
      ∃ r s' a, Optimizer.bare.rule Optimizer.bare.visitMade oneItem route.context s = .ok r s' ∧
        r.form = .constant (.array a) ∧
        (r = oneItem ∨ Optimizer.bare.HandsOn oneItem (.array a) ∨
          Optimizer.bare.settings.folding = true ∧ route.LeadsToReader) := by
  intro route s
  have hroute : route.LeadsToReader := ⟨[.carried], [], rfl, List.forall_mem_singleton.2 rfl⟩
  obtain ⟨-, hkept, hrules⟩ := (mutable_folds_escape_iff .empty Registry.empty.natives .standard).2 route
  obtain ⟨hshares, hfolds⟩ := hrules Optimizer.bare.visitMade oneItem s
  have hitems : ∀ i ∈ [(⟨.made 0, .int, .constant (.int 1)⟩ : Expr)], ∃ v, i.form = .constant v :=
    List.forall_mem_singleton.2 ⟨_, rfl⟩
  obtain ⟨r, s', a, hrun, hty, ha⟩ := hfolds _ _ rfl hitems (by decide) rfl hroute
  refine ⟨hroute, (hkept hroute).1 rfl, r, s', a, hrun, ha, hshares (fun _ _ h => by cases h) r s' _ hrun ha ?_⟩
  rw [hty]
  rfl

/-- When the method only reads its parameter, the array that is returned instead is shared all the same. -/
theorem returned_array_shared :
    let catalog : Catalog := { Catalog.empty with readOnlyParams := .ofList [⟨sumOf, 0⟩] }
    let o : Optimizer Console Registration := ⟨catalog.facts, Registry.empty.natives, .none, .standard⟩
    catalog.isImmutable (.array .int 1) = false ∧
      ∃ r s', o.optimize sumOfReturned ⟨⟨4⟩, ⟨⟨0⟩, .empty⟩, .empty⟩ = .ok r s' ∧
        ∃ p ∈ (o.facts.placed r.form).children, p.2 = .argument true ∧
          ∃ q ∈ (o.facts.placed p.1.form).children, q.2 = .carried ∧
            q.1.constantValue?.bind (·.runtimeType?) = some (.array .int 1) := by
  intro catalog o
  have hok : Run.passes (fun r _ => (o.facts.placed r.form).children.any fun p => p.2 == .argument true &&
      (o.facts.placed p.1.form).children.any fun q => q.2 == .carried &&
        q.1.constantValue?.bind (·.runtimeType?) == some (.array .int 1))
      (o.optimize sumOfReturned ⟨⟨4⟩, ⟨⟨0⟩, .empty⟩, .empty⟩) = true := by decide +kernel
  obtain ⟨r, s', hrun, htest⟩ := Run.exists_of_passes hok
  refine ⟨rfl, r, s', hrun, ?_⟩
  simpa only [List.any_eq_true, Bool.and_eq_true, beq_iff_eq] using htest

end TypedTree
