import Mathlib.Data.List.Perm.Basic
import TypedTree.Expr.Walk

/-!
# Walks

A walk goes to the sub-expressions of most nodes as `Form.children` lists them, but it has ways of its own through
function literals, blocks and bodies with handlers. It still goes through a tree in pre-order and to every node once for each
of its places (`walk_in_preorder`).

## The model

* `Expr.at?`: a place of a tree is a path from the root, which says at each node to which of the sub-expressions to go on.
* `Expr.places`: all places with their nodes, in pre-order, which is the lexicographic order of paths.
* `Report`: a call of a handler. The walk of a visitor that goes on everywhere is a fold over `Expr.reports`, so what it makes of
  a tree can be read off from that list.
* `Visitor.Keeps`: what every handler of any visitor keeps, the walk keeps.
-/

namespace TypedTree

/-! ### Places -/

namespace Expr

/-- The node at the end of a path, if there is one. -/
def at? : Expr → List Nat → Option Expr
  | e, [] => some e
  | e, i :: path => (e.form.children[i]?).bind (·.at? path)

/-- The places of a tree in pre-order, each with its node. -/
def places (e : Expr) : List (List Nat × Expr) :=
  recurse (fun e form () =>
    ([], e) :: form.children.zipIdx.flatMap fun c => (c.1.2 ()).map fun p => (c.2 :: p.1, p.2)) e ()

/-- The nodes of a tree in pre-order. -/
def preorder (e : Expr) : List Expr := e.places.map (·.2)

theorem places_eq (e : Expr) :
    e.places = ([], e) :: e.form.children.zipIdx.flatMap fun c => c.1.places.map fun p => (c.2 :: p.1, p.2) := by
  rw [places, recurse_eq, Form.children_map, List.zipIdx_map, List.flatMap_map]
  rfl

theorem preorder_eq (e : Expr) : e.preorder = e :: e.form.children.flatMap preorder := by
  have hbelow : ∀ cs : List (Expr × Nat), cs.flatMap (fun c => (c.1.places.map fun p => (c.2 :: p.1, p.2)).map (·.2)) =
      (cs.map (·.1)).flatMap preorder := by
    intro cs
    rw [List.flatMap_map]
    simp [preorder, Function.comp_def]
  rw [preorder, places_eq, List.map_cons, List.map_flatMap, hbelow, List.zipIdx_map_fst]

/-- The listed places are those of the tree. -/
theorem mem_places {e n : Expr} {path : List Nat} : (path, n) ∈ e.places ↔ e.at? path = some n := by
  induction path generalizing e with
  | nil => rw [places_eq]; simp [at?, eq_comm]
  | cons i path ih =>
    rw [places_eq, at?, Option.bind_eq_some_iff]
    simp [List.mem_zipIdx_iff_getElem?, ih]

theorem pairwise_zipIdx {α : Type} (as : List α) : as.zipIdx.Pairwise (·.2 < ·.2) := by
  have h : (as.zipIdx.map (·.2)).Pairwise (· < ·) := by
    rw [List.zipIdx_map_snd]
    exact List.pairwise_lt_range'
  exact List.pairwise_map.1 h

/-- The places are listed in lexicographic order, so none is listed twice. -/
theorem pairwise_places (e : Expr) : e.places.Pairwise (·.1 < ·.1) := by
  induction e using inductionOn with
  | node e ih =>
    rw [places_eq, List.pairwise_cons, List.pairwise_flatMap]
    refine ⟨?_, ?_, ?_⟩
    · simp only [List.mem_flatMap, List.mem_map]
      rintro _ ⟨c, _, p, _, rfl⟩
      exact List.nil_lt_cons _ _
    · intro c hc
      refine List.pairwise_map.2 ((ih c.1 (List.fst_mem_of_mem_zipIdx hc)).imp fun h => ?_)
      exact List.cons_lt_cons_iff.2 (.inr ⟨rfl, h⟩)
    · refine (pairwise_zipIdx _).imp fun {c d} hcd p hp q hq => ?_
      obtain ⟨p, _, rfl⟩ := List.mem_map.1 hp
      obtain ⟨q, _, rfl⟩ := List.mem_map.1 hq
      exact List.cons_lt_cons_iff.2 (.inl hcd)

theorem length_preorder (e : Expr) : e.preorder.length = e.nodeCount := by
  induction e using inductionOn with
  | node e ih =>
    have hsum : e.form.children.map (fun c => c.preorder.length) = e.form.children.map nodeCount :=
      List.map_congr_left ih
    rw [preorder_eq, nodeCount_eq, List.length_cons, List.length_flatMap, hsum, Nat.add_comm]
    simp [Form.sum, List.sum]

end Expr

/-! ### What handlers keep -/

namespace Visitor

variable {σ : Type} {P : σ → Prop}

/-- The step leads from states with `P` to such states. -/
def Invariant (P : σ → Prop) (step : σ → σ) : Prop := ∀ s, P s → P (step s)

/-- The handlers of the visitor keep `P`, those that go on with the walk below provided that the walk does. -/
structure Keeps (v : Visitor σ) (P : σ → Prop) : Prop where
  node (e : Expr) {below : σ → σ} : Invariant P below → Invariant P (v.node e below)
  reference (x : Var) : Invariant P (v.reference x)
  lambda (params : List Var) (body : Expr) {below : σ → σ} : Invariant P below → Invariant P (v.lambda params body below)
  block (locals : List Var) (body : List Expr) {below : σ → σ} :
    Invariant P below → Invariant P (v.block locals body below)
  clause (c : Clause Expr) {below : σ → σ} : Invariant P below → Invariant P (v.clause c below)

theorem invariant_inOrder {steps : List (σ → σ)} (h : ∀ step ∈ steps, Invariant P step) : Invariant P (inOrder steps) := by
  induction steps with
  | nil => exact fun s hs => hs
  | cons step steps ih =>
    intro s hs
    exact ih (fun f hf => h f (List.mem_cons_of_mem _ hf)) _ (h step List.mem_cons_self s hs)

theorem invariant_children {ps : List (Expr × (σ → σ))} (h : ∀ p ∈ ps, Invariant P p.2) :
    Invariant P (inOrder (ps.map (·.2))) :=
  invariant_inOrder (List.forall_mem_map.2 h)

variable {v : Visitor σ}

/-- What happens at a node keeps `P` when the walks of the sub-expressions do. -/
theorem Keeps.enter (hv : v.Keeps P) {form : Form (Expr × (σ → σ))} (h : ∀ p ∈ form.children, Invariant P p.2) :
    Invariant P (v.enter form) := by
  cases form with
  | var x => exact hv.reference x
  | lambda params body => exact hv.lambda params body.1 (h body (List.mem_singleton_self _))
  | block locals body => exact hv.block locals _ (invariant_children h)
  | tryCatch body clauses cleanup onFault =>
    simp only [Form.children, List.cons_append, List.forall_mem_cons, List.forall_mem_append, List.forall_mem_flatMap] at h
    refine invariant_inOrder ?_
    simp only [List.cons_append, List.forall_mem_cons, List.forall_mem_append, List.forall_mem_map]
    exact ⟨h.1, ⟨fun c hc => hv.clause _ (invariant_children (h.2.1.1 c hc)), h.2.1.2⟩, h.2.2⟩
  | _ => exact invariant_children h

/-- **A walk** keeps what every handler keeps. -/
theorem Keeps.walk (hv : v.Keeps P) (e : Expr) : Invariant P (v.walk e) := by
  induction e using Expr.inductionOn with
  | node e ih =>
    rw [walk_eq]
    refine hv.node e (hv.enter ?_)
    rw [Form.children_map, List.forall_mem_map]
    exact ih

end Visitor

/-! ### Reports -/

/-- A call of a handler. -/
inductive Report where
  /-- Any node. -/
  | node (e : Expr)
  /-- A reference to a variable. -/
  | reference (x : Var)
  /-- A function literal. -/
  | lambda (params : List Var) (body : Expr)
  /-- A block. -/
  | block (locals : List Var) (body : List Expr)
  /-- A catch clause. -/
  | clause (c : Clause Expr)

/-- The node, when the report is for the handler of all nodes. -/
def Report.node? : Report → Option Expr
  | .node e => some e
  | _ => none

/-- What is to be reported of a form to the handlers that are not for all nodes. -/
def Form.ownReports : Form Expr → List Report
  | .var x => [.reference x]
  | .lambda params body => [.lambda params body]
  | .block locals body => [.block locals body]
  | .tryCatch _ clauses _ _ => clauses.map .clause
  | _ => []

/-- The reports of a walk below a node, given those of the walks of its sub-expressions. -/
def Form.reports (reports : Expr → List Report) : Form Expr → List Report
  | .var x => [.reference x]
  | .lambda params body => .lambda params body :: reports body
  | .block locals body => .block locals body :: body.flatMap reports
  | .tryCatch body clauses cleanup onFault =>
    reports body ++ clauses.flatMap (fun c => .clause c :: c.children.flatMap reports)
      ++ cleanup.toList.flatMap reports ++ onFault.toList.flatMap reports
  | form => form.children.flatMap reports

namespace Visitor

variable {σ : Type}

/-- The visitor that notes every call of a handler and goes on. -/
def reporting (note : Report → σ → σ) : Visitor σ where
  node e below s := below (note (.node e) s)
  reference x := note (.reference x)
  lambda params body below s := below (note (.lambda params body) s)
  block locals body below s := below (note (.block locals body) s)
  clause c below s := below (note (.clause c) s)

/-- The visitor that records every node and goes on. -/
def recording (record : Expr → σ → σ) : Visitor σ := { idle with node := fun e below s => below (record e s) }

/-- The step does what is to be done for some reports, one after the other. -/
def Notes (note : Report → σ → σ) (step : σ → σ) (reports : List Report) : Prop :=
  ∀ s, step s = reports.foldl (fun s report => note report s) s

variable {note : Report → σ → σ}

theorem notes_nil : Notes note (inOrder []) [] := fun _ => rfl

theorem Notes.append {fs gs : List (σ → σ)} {rs rs' : List Report} (h : Notes note (inOrder fs) rs)
    (h' : Notes note (inOrder gs) rs') : Notes note (inOrder (fs ++ gs)) (rs ++ rs') := by
  intro s
  rw [inOrder, List.foldl_append, List.foldl_append, ← h s]
  exact h' _

theorem Notes.cons {step : σ → σ} {steps : List (σ → σ)} {rs rs' : List Report} (h : Notes note step rs)
    (h' : Notes note (inOrder steps) rs') : Notes note (inOrder (step :: steps)) (rs ++ rs') :=
  @Notes.append _ _ [step] _ _ _ h h'

/-- A handler that notes a report and goes on. -/
theorem Notes.after {below : σ → σ} {rs : List Report} (h : Notes note below rs) (report : Report) :
    Notes note (fun s => below (note report s)) (report :: rs) :=
  fun s => h (note report s)

theorem notes_map {α : Type} {as : List α} {step : α → σ → σ} {reports : α → List Report}
    (h : ∀ a ∈ as, Notes note (step a) (reports a)) : Notes note (inOrder (as.map step)) (as.flatMap reports) := by
  induction as with
  | nil => exact notes_nil
  | cons a as ih => exact (h a List.mem_cons_self).cons (ih fun b hb => h b (List.mem_cons_of_mem _ hb))

/-- What happens at a node notes what is to be reported of it and what the walks of its sub-expressions note. -/
theorem notes_enter {form : Form Expr} {walk : Expr → σ → σ} {reports : Expr → List Report}
    (h : ∀ c ∈ form.children, Notes note (walk c) (reports c)) :
    Notes note ((reporting note).enter (form.map fun c => (c, walk c))) (form.reports reports) := by
  have hplain : Notes note (inOrder ((form.map fun c => (c, walk c)).children.map (·.2))) (form.children.flatMap reports) := by
    rw [Form.children_map, List.map_map]
    exact notes_map h
  cases form with
  | var x => exact fun _ => rfl
  | lambda params body => exact (h body (List.mem_singleton_self _)).after (.lambda params body)
  | block locals body =>
    have hbody := hplain.after (.block locals body)
    simpa [reporting, enter, Form.map, Form.reports, Form.children, Function.comp_def] using hbody
  | tryCatch body clauses cleanup onFault =>
    simp only [Form.children, List.cons_append, List.forall_mem_cons, List.forall_mem_append, List.forall_mem_flatMap] at h
    have hclauses : Notes note (inOrder (clauses.map fun c s => inOrder (c.children.map walk) (note (.clause c) s)))
        (clauses.flatMap fun c => .clause c :: c.children.flatMap reports) :=
      notes_map fun c hc => (notes_map (h.2.1.1 c hc)).after (.clause c)
    have hsteps := ((h.1.cons hclauses).append (notes_map h.2.1.2)).append (notes_map h.2.2)
    simpa [reporting, enter, Form.map, Form.reports, Clause.map, Clause.children, Function.comp_def, Option.toList_map]
      using hsteps
  | _ => exact hplain

theorem foldl_snoc {α : Type} (as seen : List α) : as.foldl (fun seen a => seen ++ [a]) seen = seen ++ as := by
  induction as generalizing seen with
  | nil => simp
  | cons a as ih => simp [ih]

theorem Notes.eq_log {step : List Report → List Report} {rs : List Report}
    (h : Notes (fun report log => log ++ [report]) step rs) : step [] = rs :=
  (h []).trans (foldl_snoc rs [])

end Visitor

/-- The reports of the walk of a tree, which are the log of the visitor that notes them in a list. -/
def Expr.reports (e : Expr) : List Report := (Visitor.reporting fun report log => log ++ [report]).walk e []

/-- **A walk** that notes every call of a handler and goes on, in whatever way it notes them, goes through the same reports. -/
theorem Visitor.walk_reporting {σ : Type} (note : Report → σ → σ) (e : Expr) :
    Notes note ((reporting note).walk e) e.reports := by
  induction e using Expr.inductionOn generalizing σ with
  | node e ih =>
    have hwalk : ∀ {τ : Type} (note : Report → τ → τ),
        Notes note ((reporting note).walk e) (.node e :: e.form.reports Expr.reports) := by
      intro τ note
      rw [walk_eq]
      exact (notes_enter fun c hc => ih c hc note).after (.node e)
    rw [Expr.reports, (hwalk _).eq_log]
    exact hwalk note

theorem Expr.reports_eq (e : Expr) : e.reports = .node e :: e.form.reports reports := by
  rw [reports, Visitor.walk_eq]
  exact ((Visitor.notes_enter fun c _ => Visitor.walk_reporting _ c).after (.node e)).eq_log

/-! ### The order of a walk -/

theorem Form.nodes_reports (form : Form Expr) (reports : Expr → List Report) :
    (form.reports reports).filterMap Report.node? =
      form.children.flatMap fun c => (reports c).filterMap Report.node? := by
  cases form with
  | var x => rfl
  | lambda params body => simp [Form.reports, Form.children, List.filterMap_cons, Report.node?]
  | block locals body => simp [Form.reports, Form.children, List.filterMap_cons, Report.node?, List.filterMap_flatMap]
  | tryCatch body clauses cleanup onFault =>
    simp [Form.reports, Form.children, List.filterMap_cons, Report.node?, List.filterMap_flatMap, List.flatMap_assoc]
  | _ => exact List.filterMap_flatMap

/-- The nodes of a walk are reported in pre-order. -/
theorem Expr.nodes_reports (e : Expr) : e.reports.filterMap Report.node? = e.preorder := by
  induction e using inductionOn with
  | node e ih =>
    rw [reports_eq, preorder_eq, ← List.flatMap_congr ih, ← Form.nodes_reports]
    rfl

/-- What is reported below a node is reported of the node or in the walks of its sub-expressions. -/
theorem Form.reports_perm (form : Form Expr) (reports : Expr → List Report) :
    (form.reports reports).Perm (form.ownReports ++ form.children.flatMap reports) := by
  cases form with
  | tryCatch body clauses cleanup onFault =>
    have hclauses : (clauses.flatMap fun c => .clause c :: c.children.flatMap reports).Perm
        (clauses.map .clause ++ clauses.flatMap fun c => c.children.flatMap reports) :=
      (List.map_append_flatMap_perm clauses _ _).symm
    simp only [Form.reports, Form.ownReports, Form.children, List.cons_append, List.flatMap_cons, List.flatMap_append,
      List.flatMap_assoc, ← List.append_assoc]
    refine .append_right _ (.append_right _ ((hclauses.append_left _).trans ?_))
    rw [List.append_assoc]
    exact List.perm_append_comm_assoc _ _ _
  | lambda params body => simp [Form.reports, Form.ownReports, Form.children]
  | _ => exact .refl _

/-- Every node is reported once for each of its places, and so is what belongs to it. -/
theorem Expr.reports_perm (e : Expr) : e.reports.Perm (e.preorder.flatMap fun n => .node n :: n.form.ownReports) := by
  induction e using inductionOn with
  | node e ih =>
    rw [reports_eq, preorder_eq, List.flatMap_cons, List.cons_append, List.flatMap_assoc]
    refine .cons _ ((e.form.reports_perm reports).trans (.append_left _ ?_))
    exact .flatMap_left _ ih

/-- A visitor that only records nodes is one that notes nothing else. -/
theorem Visitor.recording_eq {σ : Type} (record : Expr → σ → σ) :
    recording record = reporting fun report s => report.node?.elim s (record · s) := rfl

theorem Visitor.walk_recording {σ : Type} (record : Expr → σ → σ) (e : Expr) (s : σ) :
    (recording record).walk e s = e.preorder.foldl (fun s n => record n s) s := by
  rw [recording_eq, walk_reporting, ← e.nodes_reports, List.foldl_filterMap]
  congr 1
  funext s report
  cases report <;> rfl

/-- **A walk** that records every node and goes on everywhere records one node for each place of the tree, in pre-order. If it
notes every call of a handler, it notes besides each reference, function literal, block and catch clause of each of these
nodes once. -/
theorem walk_in_preorder (e : Expr) :
    let recorded := (Visitor.recording fun n seen => seen ++ [n]).walk e []
    let noted := (Visitor.reporting fun report log => log ++ [report]).walk e []
    (∃ places : List (List Nat × Expr), places.Pairwise (·.1 < ·.1) ∧ (∀ path n, (path, n) ∈ places ↔ e.at? path = some n) ∧
      recorded = places.map (·.2)) ∧
    recorded.length = e.nodeCount ∧ noted.filterMap Report.node? = recorded ∧
      noted.Perm (recorded.flatMap fun n => .node n :: n.form.ownReports) := by
  intro recorded noted
  have hrecorded : recorded = e.preorder := by
    rw [← List.nil_append e.preorder, ← Visitor.foldl_snoc]
    exact Visitor.walk_recording _ e []
  rw [hrecorded]
  exact ⟨⟨e.places, e.pairwise_places, fun _ _ => Expr.mem_places, rfl⟩, e.length_preorder, e.nodes_reports, e.reports_perm⟩

end TypedTree
