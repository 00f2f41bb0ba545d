import PointsTo.Program.Naming

/-!
# Contexts

A context tells apart several analyses of one method, or several objects of one allocation. It is a
bounded list of elements, oldest first; what the elements are depends on the policy that makes them.

Both ways to make a context keep a suffix: `Context.append` the last elements of the old ones and a
new one, `Context.truncate` the last of the old ones.
-/

namespace PointsTo

/-- Position of an allocation among all allocations of the program. -/
abbrev ObjId := Nat

/-- One element of a context. -/
inductive ContextElement where
  | callSite (site : Site)
  /-- An allocated object. -/
  | object (o : ObjId)
  | type (c : ClassId)
deriving DecidableEq, Inhabited

/-- A context: its elements, oldest first. -/
structure Context where
  /-- The elements, oldest first. -/
  elements : List ContextElement
deriving DecidableEq

namespace ContextElement

/-- The element as text. -/
def text : ContextElement → String
  | callSite site => site.text
  | object o => s!"o{o}"
  | type c => s!"T{c}"

/-- The numbers by which elements are ordered: kind, then parts. -/
def sortKey : ContextElement → List Nat
  | callSite site => 0 :: site.sortKey
  | object o => [1, o]
  | type c => [2, c]

end ContextElement

namespace Context

/-- The last `n` elements of a list, or all of it if it is shorter. -/
def lastOf {α : Type} (n : Nat) (xs : List α) : List α := xs.drop (xs.length - n)

/-- The context without elements. -/
def empty : Context := ⟨[]⟩

instance : EmptyCollection Context := ⟨empty⟩

instance : Inhabited Context := ⟨empty⟩

/-- The context of one element. -/
def singleton (e : ContextElement) : Context := ⟨[e]⟩

/-- The last `limit` elements of the context with `e` behind it. -/
def append (c : Context) (e : ContextElement) (limit : Nat) : Context :=
  ⟨lastOf limit (c.elements ++ [e])⟩

/-- The last `limit` elements of the context. -/
def truncate (c : Context) (limit : Nat) : Context := ⟨lastOf limit c.elements⟩

/-- The number of elements. -/
def depth (c : Context) : Nat := c.elements.length

/-- The context as text, such as `[m0#1, o4]`. -/
def text (c : Context) : String := "[" ++ ", ".intercalate (c.elements.map (·.text)) ++ "]"

end Context

end PointsTo
