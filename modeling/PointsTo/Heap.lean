import PointsTo.Context.Basic

/-!
# The abstract heap

All objects that one allocation statement creates are one abstract object. The heap of a program lists
one object for each allocation, in the order of methods and statements, and an object's id is its
position in that list.
-/

namespace PointsTo

/-- The objects that one allocation creates. -/
structure AbstractObject where
  id : ObjId
  site : Site
  /-- The type of the objects. -/
  ty : TypeRef
  /-- The class that declares the allocating method. -/
  container : ClassId
deriving DecidableEq, Inhabited

namespace AbstractObject

/-- The object as text, such as `o0@m1#2`. -/
def text (o : AbstractObject) : String := s!"o{o.id}@{o.site.text}"

/-- The object in the program's names, such as `A@<Main: void main()>#0`. -/
def describe (o : AbstractObject) (p : Program) : String :=
  s!"{p.typeName o.ty}@{p.signature o.site.method}#{o.site.index}"

end AbstractObject

/-- The abstract objects of a program. -/
structure Heap where
  /-- The objects, in the order of their ids. -/
  objects : Array AbstractObject
deriving DecidableEq, Inhabited

namespace Heap

/-- The allocations of a method: site, type and declaring class. -/
def allocations (m : MethodDecl) : List (Site × TypeRef × ClassId) :=
  m.sites.filterMap fun (site, stmt) =>
    match stmt with
    | .new _ ty => some (site, ty, m.owner)
    | _ => none

/-- One object for each allocation of the program. -/
def ofProgram (p : Program) : Heap :=
  ⟨((p.methods.toList.flatMap allocations).zipIdx.map fun ((site, ty, container), id) =>
    { id, site, ty, container }).toArray⟩

/-- The object of an id. -/
def object? (h : Heap) (o : ObjId) : Option AbstractObject := h.objects[o]?

/-- The object that an allocation creates; of several for one site, the last. -/
def objectAt? (h : Heap) (site : Site) : Option AbstractObject :=
  h.objects.toList.reverse.find? (·.site = site)

end Heap

end PointsTo
