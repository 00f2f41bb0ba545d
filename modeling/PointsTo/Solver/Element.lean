import PointsTo.Context.Basic

/-!
# Program elements under contexts

What the solver computes about: abstract objects under heap contexts, methods, variables and call
sites under contexts, and the pointers that hold points-to sets. Contexts and objects appear by the
ids that the arena has given them.
-/

namespace PointsTo

/-- Id of an interned context. -/
abbrev ContextId := Nat

/-- Id of an interned object under its heap context. -/
abbrev CSObjId := Nat

/-- Id of an interned method under its context. -/
abbrev CSMethodId := Nat

/-- Id of an interned call site under its context. -/
abbrev CSSiteId := Nat

/-- Id of an interned pointer. -/
abbrev PointerId := Nat

/-- An abstract object under its heap context. -/
structure CSObj where
  heapContext : ContextId
  object : ObjId
deriving DecidableEq, Inhabited

/-- A method under a context. -/
structure CSMethod where
  context : ContextId
  method : MethodId
deriving DecidableEq, Inhabited

/-- A call site under the context of its method. -/
structure CSSite where
  context : ContextId
  site : Site
deriving DecidableEq, Inhabited

/-- Anything that holds a points-to set. -/
inductive Pointer where
  /-- A variable under the context of its method. -/
  | var (context : ContextId) (v : VarId)
  | instanceField (base : CSObjId) (f : FieldId)
  /-- A static field, shared by all contexts. -/
  | staticField (f : FieldId)
  /-- All slots of an array together. -/
  | arraySlots (array : CSObjId)
deriving DecidableEq, Inhabited

namespace CSObj

/-- The numbers by which objects are ordered. -/
def sortKey (o : CSObj) : List Nat := [o.heapContext, o.object]

end CSObj

namespace CSMethod

/-- The numbers by which methods are ordered. -/
def sortKey (m : CSMethod) : List Nat := [m.context, m.method]

end CSMethod

namespace CSSite

/-- The numbers by which call sites are ordered. -/
def sortKey (s : CSSite) : List Nat := s.context :: s.site.sortKey

end CSSite

namespace Pointer

/-- The pointer as text. -/
def text : Pointer → String
  | var context v => s!"c{context}:v{v}"
  | instanceField base f => s!"cso{base}.f{f}"
  | staticField f => s!"static.f{f}"
  | arraySlots array => s!"cso{array}[*]"

/-- The numbers by which pointers are ordered: kind, then parts. -/
def sortKey : Pointer → List Nat
  | var context v => [0, context, v]
  | instanceField base f => [1, base, f]
  | staticField f => [2, f]
  | arraySlots array => [3, array]

/-- The variable and its context, if the pointer is one. -/
def var? : Pointer → Option (ContextId × VarId)
  | var context v => some (context, v)
  | _ => none

end Pointer

end PointsTo
