import TypedTree.Optimize.Settings
import TypedTree.Optimize.Tally

/-!
# Records

Settings and tallies are stored as records. A record is written as named fields; it is read from named fields, of
which all must be there and others are ignored, or from a list of exactly the fields in their order. Counts are natural
numbers that fit a machine word.
-/

namespace TypedTree

/-- Structured data from which records are read. -/
inductive Datum where
  /-- Nothing. -/
  | null
  /-- A truth value. -/
  | bool (b : Bool)
  /-- An integer. -/
  | integer (i : Int)
  /-- A number that is not written as an integer. -/
  | fraction
  /-- A text. -/
  | text (s : String)
  /-- A list. -/
  | list (items : List Datum)
  /-- Named fields. -/
  | fields (fs : List (String × Datum))
deriving Repr, Inhabited

namespace Datum

/-- The truth value, if it is one. -/
def bool? : Datum → Option Bool
  | .bool b => some b
  | _ => none

/-- The count, if it is one. -/
def count? : Datum → Option Nat
  | .integer i => if 0 ≤ i ∧ i < UInt64.size then some i.toNat else none
  | _ => none

/-- The name of a choice: a text, or a single field with nothing in it. -/
def choice? : Datum → Option String
  | .text s => some s
  | .fields [(s, .null)] => some s
  | _ => none

/-- The data of a record with the given fields, in their order. -/
def record? (names : List String) : Datum → Option (List Datum)
  | .list items => if items.length = names.length then some items else none
  | .fields fs => names.mapM fun n => fs.lookup n
  | _ => none

end Datum

/-- The names of the levels. -/
def Level.text : Level → String
  | .none => "None"
  | .basic => "Basic"
  | .standard => "Standard"
  | .aggressive => "Aggressive"

/-- The level of that name. -/
def Level.ofText? (name : String) : Option Level :=
  [Level.none, .basic, .standard, .aggressive].find? (·.text == name)

namespace Settings

/-- The names of the fields of stored settings. -/
def fieldNames : List String :=
  ["level", "constant_folding", "null_dereference_prediction", "beta_reduction", "conditional_flattening",
    "try_simplification", "max_folded_array_length"]

/-- The data of the fields, in their order. -/
def data (s : Settings) : List Datum :=
  [.text s.level.text, .bool s.folding, .bool s.nullPrediction, .bool s.inlining, .bool s.flattening,
    .bool s.trySimplification, .integer s.arrayLimit]

/-- Settings as named fields. -/
def stored (s : Settings) : Datum := .fields (fieldNames.zip s.data)

/-- The settings that are stored. -/
def read? (d : Datum) : Option Settings := do
  match ← d.record? fieldNames with
  | [level, folding, nullPrediction, inlining, flattening, trySimplification, arrayLimit] =>
    return ⟨← (← level.choice?) |> Level.ofText?, ← folding.bool?, ← nullPrediction.bool?, ← inlining.bool?,
      ← flattening.bool?, ← trySimplification.bool?, ← arrayLimit.count?⟩
  | _ => none

/-- Settings in which the fields that are given replace those of `s`. -/
def override (s : Settings) (given : String → Option Datum) : Settings where
  level := s.level
  folding := ((given "constant_folding").bind Datum.bool?).getD s.folding
  nullPrediction := ((given "null_dereference_prediction").bind Datum.bool?).getD s.nullPrediction
  inlining := ((given "beta_reduction").bind Datum.bool?).getD s.inlining
  flattening := ((given "conditional_flattening").bind Datum.bool?).getD s.flattening
  trySimplification := ((given "try_simplification").bind Datum.bool?).getD s.trySimplification
  arrayLimit := ((given "max_folded_array_length").bind Datum.count?).getD s.arrayLimit

/-- The preset of the given level, or the standard settings, with the given fields replaced. -/
def ofFields (given : String → Option Datum) : Settings :=
  let preset := ((given "level").bind Datum.choice?).bind Level.ofText?
  ((preset.map Settings.ofLevel).getD .standard).override given

end Settings

namespace Tally

/-- The names of the fields of a stored tally. -/
def fieldNames : List String :=
  ["nodes_before", "nodes_after", "constants_folded", "throws_propagated", "null_dereferences_predicted",
    "branches_eliminated", "beta_reductions", "catch_bindings_dropped", "filters_removed", "evaluator_refusals",
    "optimization_time_us"]

/-- The counts, in the order of the fields. -/
def counts (t : Tally) : List Nat :=
  [t.nodesBefore, t.nodesAfter, t.folded, t.threw, t.nullDereferences, t.branches, t.inlined, t.bindingsDropped,
    t.filtersRemoved, t.refusals, t.micros]

/-- A tally as named fields. -/
def stored (t : Tally) : Datum := .fields (fieldNames.zip (t.counts.map fun n : Nat => .integer n))

/-- The tally that is stored. -/
def read? (d : Datum) : Option Tally := do
  match ← (← d.record? fieldNames).mapM Datum.count? with
  | [before, after, folded, threw, nulls, branches, inlined, bindings, filters, refusals, micros] =>
    return ⟨before, after, folded, threw, nulls, branches, inlined, bindings, filters, refusals, micros⟩
  | _ => none

end Tally

end TypedTree
