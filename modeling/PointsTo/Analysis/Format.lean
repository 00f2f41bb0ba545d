import PointsTo.Analysis.Summary
import PointsTo.Json.Double
import PointsTo.Json.Printer
import PointsTo.Json.Reader
import PointsTo.Json.Record

/-!
# Reports as JSON

A report is a record, and so are its sizes and its call edges; none of their fields may be missing. The
tables are objects, written by increasing key, where of two entries of one key the later one counts.
-/

namespace PointsTo

namespace EdgeKind

/-- A kind from its exact name. -/
def ofJson? (j : Json) : Option EdgeKind := j.choice? Json.isNull (all.map fun k => (k.name, k))

end EdgeKind

namespace NamedEdge

/-- The edge as a record. -/
def toJson (e : NamedEdge) : Json := .record
  [("caller", .ofString e.caller), ("call_site", .ofString e.site), ("callee", .ofString e.callee),
   ("kind", .ofString e.kind.name)]

/-- An edge from its record. -/
def ofJson? (j : Json) : Option NamedEdge := do
  match ← j.slots? ["caller", "call_site", "callee", "kind"] with
  | [caller, site, callee, kind] =>
    pure {
      caller := ← caller.required Json.text?
      site := ← site.required Json.text?
      callee := ← callee.required Json.text?
      kind := ← kind.required EdgeKind.ofJson? }
  | _ => none

end NamedEdge

namespace SolverStats

/-- The counters as members of a record. -/
def members (s : SolverStats) : List (String × Json) :=
  [("worklist_entries", .ofNat s.arrivals), ("propagations", .ofNat s.propagations),
   ("dispatch_misses", .ofNat s.dispatchMisses)]

/-- The counters as a record. -/
def toJson (s : SolverStats) : Json := .record s.members

end SolverStats

namespace AnalysisStats

/-- The sizes as members of a record. -/
def sizeMembers (s : AnalysisStats) : List (String × Json) :=
  [("reachable_methods", .ofNat s.reachableMethods), ("cs_methods", .ofNat s.csMethods),
   ("contexts", .ofNat s.contexts), ("cs_objects", .ofNat s.csObjects),
   ("pointers", .ofNat s.pointers), ("pfg_edges", .ofNat s.flowEdges),
   ("call_edges", .ofNat s.callEdges), ("worklist_entries", .ofNat s.arrivals),
   ("propagations", .ofNat s.propagations), ("dispatch_misses", .ofNat s.dispatchMisses)]

/-- The sizes and the duration as a record. -/
def toJson (s : AnalysisStats) : Json :=
  .record (s.sizeMembers ++ [("duration_ms", .ofFloat s.durationMs)])

/-- Sizes and duration from their record. -/
def ofJson? (j : Json) : Option AnalysisStats := do
  match ← j.slots? ["reachable_methods", "cs_methods", "contexts", "cs_objects", "pointers",
    "pfg_edges", "call_edges", "worklist_entries", "propagations", "dispatch_misses",
    "duration_ms"] with
  | [reachableMethods, csMethods, contexts, csObjects, pointers, flowEdges, callEdges, arrivals,
      propagations, dispatchMisses, durationMs] =>
    pure {
      reachableMethods := ← reachableMethods.required Json.size?
      csMethods := ← csMethods.required Json.size?
      contexts := ← contexts.required Json.size?
      csObjects := ← csObjects.required Json.size?
      pointers := ← pointers.required Json.size?
      flowEdges := ← flowEdges.required Json.size?
      callEdges := ← callEdges.required Json.size?
      arrivals := ← arrivals.required Json.size?
      propagations := ← propagations.required Json.size?
      dispatchMisses := ← dispatchMisses.required Json.size?
      durationMs := ← durationMs.required Json.float? }
  | _ => none

end AnalysisStats

namespace Summary

/-- A table as an object. -/
def tableToJson (t : NameMap (List String)) : Json :=
  .record (t.entries.map fun (k, v) => (k, .ofList .ofString v))

/-- A table from an object. -/
def tableOfJson? (j : Json) : Option (NameMap (List String)) := do
  let members ← j.members?
  let entries ← members.mapM fun (k, v) => (v.list? Json.text?).map (k, ·)
  pure (NameMap.ofList entries)

/-- The report as members of a record, with its sizes as they are given. -/
def members (s : Summary) (stats : Json) : List (String × Json) :=
  [("selector", .ofString s.selector), ("stats", stats),
   ("reachable_methods", .ofList .ofString s.reachableMethods),
   ("call_edges", .ofList NamedEdge.toJson s.callEdges),
   ("var_points_to", tableToJson s.varPointsTo), ("field_points_to", tableToJson s.fieldPointsTo)]

/-- The report as a record. -/
def toJson (s : Summary) : Json := .record (s.members s.stats.toJson)

/-- A report from its record. -/
def ofJson? (j : Json) : Option Summary := do
  match ← j.slots? ["selector", "stats", "reachable_methods", "call_edges", "var_points_to",
    "field_points_to"] with
  | [selector, stats, reachableMethods, callEdges, varPointsTo, fieldPointsTo] =>
    pure {
      selector := ← selector.required Json.text?
      stats := ← stats.required AnalysisStats.ofJson?
      reachableMethods := ← reachableMethods.required (Json.list? Json.text?)
      callEdges := ← callEdges.required (Json.list? NamedEdge.ofJson?)
      varPointsTo := ← varPointsTo.required tableOfJson?
      fieldPointsTo := ← fieldPointsTo.required tableOfJson? }
  | _ => none

/-- The text of the report. -/
def toText (s : Summary) : String := s.toJson.pretty

/-- The report of a text. -/
def ofText? (text : String) : Option Summary := (Json.parse? text).bind ofJson?

end Summary

end PointsTo
