import PointsTo.Heap
import PointsTo.Json.Record
import PointsTo.Program.Format
import PointsTo.Solver.Arena

/-!
# Contexts, objects and pointers as JSON

Each value is a record of its parts; where there are several kinds of one thing, the record stands under
the name of the kind.
-/

namespace PointsTo

namespace ContextElement

/-- The element under its kind. -/
def toJson : ContextElement → Json
  | callSite site => .record [("CallSite", site.toJson)]
  | object o => .record [("Object", .ofNat o)]
  | type c => .record [("Type", .ofNat c)]

/-- An element from its record. -/
def ofJson? : Json → Option ContextElement
  | .obj [(some "CallSite", j)] => (Site.ofJson? j).map .callSite
  | .obj [(some "Object", j)] => j.id?.map .object
  | .obj [(some "Type", j)] => j.id?.map .type
  | _ => none

end ContextElement

namespace Context

/-- The context as a record of its elements. -/
def toJson (c : Context) : Json := .record [("elements", .ofList ContextElement.toJson c.elements)]

end Context

namespace IdSet

/-- The set as a record of its elements. -/
def toJson (s : IdSet) : Json := .record [("elements", .ofList .ofNat s.toList)]

end IdSet

namespace AbstractObject

/-- The object as a record. -/
def toJson (o : AbstractObject) : Json := .record
  [("id", .ofNat o.id), ("alloc_site", o.site.toJson), ("ty", o.ty.toJson),
   ("container", .ofNat o.container)]

/-- An object from its record. -/
def ofJson? (j : Json) : Option AbstractObject := do
  match ← j.slots? ["id", "alloc_site", "ty", "container"] with
  | [id, site, ty, container] =>
    pure {
      id := ← id.required Json.id?
      site := ← site.required Site.ofJson?
      ty := ← ty.required TypeRef.ofJson?
      container := ← container.required Json.id? }
  | _ => none

end AbstractObject

namespace CSObj

/-- The object as a record. -/
def toJson (o : CSObj) : Json := .record [("heap_ctx", .ofNat o.heapContext), ("obj", .ofNat o.object)]

/-- An object from its record. -/
def ofJson? (j : Json) : Option CSObj := do
  match ← j.slots? ["heap_ctx", "obj"] with
  | [heapContext, object] => pure ⟨← heapContext.required Json.id?, ← object.required Json.id?⟩
  | _ => none

end CSObj

namespace CSMethod

/-- The method as a record. -/
def toJson (m : CSMethod) : Json := .record [("ctx", .ofNat m.context), ("method", .ofNat m.method)]

/-- A method from its record. -/
def ofJson? (j : Json) : Option CSMethod := do
  match ← j.slots? ["ctx", "method"] with
  | [context, method] => pure ⟨← context.required Json.id?, ← method.required Json.id?⟩
  | _ => none

end CSMethod

namespace CSSite

/-- The site as a record. -/
def toJson (s : CSSite) : Json := .record [("ctx", .ofNat s.context), ("site", s.site.toJson)]

/-- A site from its record. -/
def ofJson? (j : Json) : Option CSSite := do
  match ← j.slots? ["ctx", "site"] with
  | [context, site] => pure ⟨← context.required Json.id?, ← site.required Site.ofJson?⟩
  | _ => none

end CSSite

namespace Pointer

/-- The pointer under its kind. -/
def toJson : Pointer → Json
  | var context v => .record [("Var", .record [("ctx", .ofNat context), ("var", .ofNat v)])]
  | instanceField base f =>
    .record [("InstanceField", .record [("base", .ofNat base), ("field", .ofNat f)])]
  | staticField f => .record [("StaticField", .record [("field", .ofNat f)])]
  | arraySlots array => .record [("ArrayIndex", .record [("array", .ofNat array)])]

/-- A pointer from its record. -/
def ofJson? : Json → Option Pointer
  | .obj [(some "Var", j)] => do
    match ← j.slots? ["ctx", "var"] with
    | [context, v] => pure (.var (← context.required Json.id?) (← v.required Json.id?))
    | _ => none
  | .obj [(some "InstanceField", j)] => do
    match ← j.slots? ["base", "field"] with
    | [base, f] => pure (.instanceField (← base.required Json.id?) (← f.required Json.id?))
    | _ => none
  | .obj [(some "StaticField", j)] => do
    match ← j.slots? ["field"] with
    | [f] => pure (.staticField (← f.required Json.id?))
    | _ => none
  | .obj [(some "ArrayIndex", j)] => do
    match ← j.slots? ["array"] with
    | [array] => pure (.arraySlots (← array.required Json.id?))
    | _ => none
  | _ => none

end Pointer

end PointsTo
