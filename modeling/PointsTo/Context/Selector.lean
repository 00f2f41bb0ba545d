import PointsTo.Heap

/-!
# Context selectors

A selector says under which context a method is analysed when a call reaches it, and under which heap
context an allocation is recorded. It is a record of pure functions, so any such choice can be plugged
into the solver; the four policies are given here.

* `insensitive`: one context for everything.
* `callSite k heapK`: the last `k` call sites on the way to the method.
* `objectSensitive k heapK`: the receiver object behind its heap context, the last `k` of them.
* `typeSensitive k heapK`: the same with the class whose method allocated the receiver in place of the
  object.

The last three record an allocation under the last `heapK` elements of its method's context, and under
the last two a static call stays in the context of its caller.
-/

namespace PointsTo

/-- The receiver of an instance call. -/
structure Receiver where
  /-- The context under which the object was recorded. -/
  heapContext : Context
  object : AbstractObject

/-- How contexts are chosen. -/
structure Selector where
  name : String
  /-- The context of the entry methods. -/
  entryContext : Context
  /-- The context of `callee` for a call at `site` in a method under `caller`. -/
  calleeContext : (caller : Context) → (site : Site) → (receiver : Option Receiver) →
    (callee : MethodId) → Context
  /-- The heap context of an object allocated in a method under `method`. -/
  heapContext : (method : Context) → (object : AbstractObject) → Context

namespace Selector

/-- One context for everything. -/
def insensitive : Selector where
  name := "context-insensitive"
  entryContext := ∅
  calleeContext _ _ _ _ := ∅
  heapContext _ _ := ∅

/-- The last `k` call sites. -/
def callSite (k heapK : Nat) : Selector where
  name := s!"{k}-call-site"
  entryContext := ∅
  calleeContext caller site _ _ := caller.append (.callSite site) k
  heapContext method _ := method.truncate heapK

/-- The last `k` of what `element` makes of the receiver, behind its heap context. -/
def receiverBased (name : String) (element : AbstractObject → ContextElement) (k heapK : Nat) :
    Selector where
  name := name
  entryContext := ∅
  calleeContext caller _ receiver _ :=
    match receiver with
    | some r => r.heapContext.append (element r.object) k
    | none => caller.truncate k
  heapContext method _ := method.truncate heapK

/-- The last `k` receiver objects. -/
def objectSensitive (k heapK : Nat) : Selector :=
  receiverBased s!"{k}-object" (fun o => .object o.id) k heapK

/-- The last `k` classes whose methods allocated the receivers. -/
def typeSensitive (k heapK : Nat) : Selector :=
  receiverBased s!"{k}-type" (fun o => .type o.container) k heapK

end Selector

end PointsTo
