import PointsTo.Config.Basic
import PointsTo.Json.Record

/-!
# Configurations as JSON

A configuration is a record whose missing fields count as the standard ones. Policies, presets and
orders are written as their names, and read as nothing but their names: the short forms are for people.
-/

namespace PointsTo

namespace ContextPolicy

/-- A policy from its exact name. -/
def ofJson? (j : Json) : Option ContextPolicy :=
  j.choice? Json.isNull (all.map fun p => (p.name, p))

end ContextPolicy

namespace Preset

/-- A preset from its exact name. -/
def ofJson? (j : Json) : Option Preset := j.choice? Json.isNull (all.map fun p => (p.name, p))

end Preset

namespace WorklistOrder

/-- An order from its exact name. -/
def ofJson? (j : Json) : Option WorklistOrder :=
  j.choice? Json.isNull (all.map fun o => (o.name, o))

end WorklistOrder

namespace Config

/-- The names of the settings. -/
def fieldNames : List String :=
  ["policy", "context_depth", "heap_context_depth", "worklist_order", "extra_entries"]

/-- The settings as a record. -/
def toJson (c : Config) : Json := .record
  [("policy", .ofString c.policy.name), ("context_depth", .ofNat c.contextDepth),
   ("heap_context_depth", .ofNat c.heapContextDepth),
   ("worklist_order", .ofString c.worklistOrder.name),
   ("extra_entries", .ofList .ofString c.extraEntries)]

/-- Settings from a record. -/
def ofJson? (j : Json) : Option Config := do
  match ← j.slots? fieldNames with
  | [policy, contextDepth, heapContextDepth, worklistOrder, extraEntries] =>
    pure {
      policy := ← policy.orElse standard.policy ContextPolicy.ofJson?
      contextDepth := ← contextDepth.orElse standard.contextDepth Json.size?
      heapContextDepth := ← heapContextDepth.orElse standard.heapContextDepth Json.size?
      worklistOrder := ← worklistOrder.orElse standard.worklistOrder WorklistOrder.ofJson?
      extraEntries := ← extraEntries.orElse standard.extraEntries (Json.list? Json.text?) }
  | _ => none

end Config

end PointsTo
