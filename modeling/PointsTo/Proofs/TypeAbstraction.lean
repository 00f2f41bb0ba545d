import PointsTo.Proofs.Refinement

/-!
# Objects refine the classes that allocate them

Object and type sensitivity look at the same receivers in the same way, but for the element that a
receiver brings: the object itself, or the class whose method allocates it. So replacing every object in
every context by that class takes a run of the one to a run of the other. The map merges contexts, and
with them methods and heap objects, but it commutes with everything a policy does to a context, as that
never depends on what the elements are (`simulated_of_elements`). Hence whatever object sensitivity
says, type sensitivity at the same depths says as well (`objects_refine_types`).
-/

namespace PointsTo

/-- The element with an object replaced by the class whose method allocates it. -/
def ContextElement.toContainer (h : Heap) : ContextElement → ContextElement
  | .object o => ((h.object? o).map fun a => .type a.container).getD (.object o)
  | e => e

theorem ContextElement.toContainer_object {h : Heap} {o : ObjId} {a : AbstractObject}
    (ha : h.object? o = some a) : toContainer h (.object o) = .type a.container := by
  rw [toContainer, ha]
  rfl

/-- Every element of every context is replaced, objects outside contexts are kept. -/
def Translation.elementwise (f : ContextElement → ContextElement) : Translation where
  methodContext := Context.map f
  heapContext := Context.map f
  object := id

section

variable {p : Program} {element element' : AbstractObject → ContextElement}
  {f : ContextElement → ContextElement}

/-- Two policies that look at receivers to the same depths: if replacing elements takes what the one
makes of an object of the program to what the other makes of it, it takes the one policy to the other. -/
theorem simulated_of_elements (name name' : String) (k heapK : Nat)
    (hf : ∀ {i a}, (Heap.ofProgram p).object? i = some a → f (element a) = element' a) :
    (p.setup (.receiverBased name element k heapK)).Simulated
      (p.setup (.receiverBased name' element' k heapK)) (.elementwise f) where
  entry := rfl
  stmt h := h
  method h := ⟨_, h, rfl, rfl, List.Subset.refl _⟩
  noMethod h := h
  resolveStatic _ := rfl
  staticCallee c _ _ := (Context.map_truncate (c := c) k).symm
  allocation h := ⟨_, h, rfl, fun c => (Context.map_truncate (c := c) heapK).symm⟩
  receiver := by
    intro i a ha
    refine ⟨a, ha, fun _ => rfl, ?_⟩
    intro c site h m
    show (h.map f).append (element' a) k = (h.append (element a) k).map f
    rw [Context.map_append, hf ha]

/-- Replacing objects by the classes that allocate them takes object sensitivity to type sensitivity. -/
theorem simulated_toContainer (hp : p.validate = .ok ()) (k heapK : Nat) :
    (p.setup (.objectSensitive k heapK)).Simulated (p.setup (.typeSensitive k heapK))
      (.elementwise (.toContainer (.ofProgram p))) := by
  refine simulated_of_elements _ _ k heapK ?_
  intro i a ha
  -- an object stands at the position of its id, so its id leads back to it
  have hid : a.id = i := (Heap.allocated_of_object? hp ha).1
  have hobject : (Heap.ofProgram p).object? a.id = some a := by rw [hid, ha]
  exact ContextElement.toContainer_object hobject

end

open Solver

/-- Object sensitivity refines type sensitivity. On every checked program, once the run of type
sensitivity ends well, so does the run of object sensitivity from the same entries at the same depths,
given fuel for as many steps as it may take, and its solution refines the one by types. -/
theorem objects_refine_types {p : Program} (hp : p.validate = .ok ()) (k heapK : Nat)
    (order order' : WorklistOrder) (entries : List MethodId) (n' : Nat) (t : State)
    (ht : solve (p.setup (.typeSensitive k heapK)) n' entries (.initial order') = .ok () t) :
    (∀ n, p.stepBound k heapK ≤ n →
      ∃ s, solve (p.setup (.objectSensitive k heapK)) n entries (.initial order) = .ok () s) ∧
    ∀ n s, solve (p.setup (.objectSensitive k heapK)) n entries (.initial order) = .ok () s →
      ((p.setup (.objectSensitive k heapK)).solution s).Refines
        ((p.setup (.typeSensitive k heapK)).solution t) := by
  have hset : (p.setup (.objectSensitive k heapK)).WellFormed := Program.wellFormed_setup hp
  have hset' : (p.setup (.typeSensitive k heapK)).WellFormed := Program.wellFormed_setup hp
  have hsim := simulated_toContainer hp k heapK
  obtain ⟨-, -, hcomplete⟩ := outcome_of_solve hset' ht
  constructor
  · intro n hn
    have hpolicy : ContextPolicy.object.selector k heapK = .objectSensitive k heapK := rfl
    rw [← hpolicy] at hsim ⊢
    exact hsim.exists_solve hp hcomplete (fun _ hm => hm) (ne_nil_of_solve ht) order hn
  · intro n s hs
    exact hsim.refines rfl hset hset' hs ht

namespace Sample

/-- Two objects of one class are receivers of one call each:
`a = new A; b = new A; c = a.id(a); d = b.id(b);`. -/
def receivers : Program :=
  { program with
    methods := #[{ main with body := [
      .new 0 (.ofClass 0),
      .new 1 (.ofClass 0),
      .call { mode := .virtual, target := ⟨0, "A id(A)"⟩, receiver := some 0, args := [0], result := some 2 },
      .call { mode := .virtual, target := ⟨0, "A id(A)"⟩, receiver := some 1, args := [1], result := some 5 }] },
      identity]
    vars := program.vars ++ #[⟨5, "d", 0⟩] }

end Sample

/-- The container of both receivers is the same class, so type sensitivity takes either call to return
both objects, and object sensitivity each call to return its own. -/
theorem objects_refine_types_receivers : Sample.receivers.validate = .ok () ∧ ∃ t,
    solve (Sample.receivers.setup (.typeSensitive 1 0)) 40 [0] (.initial .fifo) = .ok () t ∧
    1 ∈ ((Sample.receivers.setup (.typeSensitive 1 0)).solution t).varPointsTo 2 ∧
    (∃ s, solve (Sample.receivers.setup (.objectSensitive 1 0)) (Sample.receivers.stepBound 1 0) [0]
      (.initial .lifo) = .ok () s) ∧ ∃ s,
    solve (Sample.receivers.setup (.objectSensitive 1 0)) 40 [0] (.initial .lifo) = .ok () s ∧
    1 ∉ ((Sample.receivers.setup (.objectSensitive 1 0)).solution s).varPointsTo 2 ∧
    ((Sample.receivers.setup (.objectSensitive 1 0)).solution s).Refines
      ((Sample.receivers.setup (.typeSensitive 1 0)).solution t) := by
  have hp : Sample.receivers.validate = .ok () := by rfl
  obtain ⟨⟨⟩, t, ht, hmem⟩ := Ends.exists_ok (by decide +kernel :
    Ends (solve (Sample.receivers.setup (.typeSensitive 1 0)) 40 [0]) (.initial .fifo)
      (fun _ t => 1 ∈ ((Sample.receivers.setup (.typeSensitive 1 0)).solution t).varPointsTo 2)
      fun _ _ => False)
  obtain ⟨⟨⟩, s, hs, hnot⟩ := Ends.exists_ok (by decide +kernel :
    Ends (solve (Sample.receivers.setup (.objectSensitive 1 0)) 40 [0]) (.initial .lifo)
      (fun _ s => 1 ∉ ((Sample.receivers.setup (.objectSensitive 1 0)).solution s).varPointsTo 2)
      fun _ _ => False)
  obtain ⟨hends, hrefines⟩ := objects_refine_types hp 1 0 .lifo .fifo [0] 40 t ht
  exact ⟨hp, t, ht, hmem, hends _ (Nat.le_refl _), s, hs, hnot, hrefines 40 s hs⟩

end PointsTo
