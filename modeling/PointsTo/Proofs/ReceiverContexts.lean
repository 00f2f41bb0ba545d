import PointsTo.Proofs.ContextSuffix
import PointsTo.Proofs.Refinement

/-!
# Receivers and the contexts they make

To the analysis the variable that holds the receiver is a variable like any other: arguments and results
could flow to it, and statements could assign it. Where the program does none of this
(`Program.ThisUnassigned`), objects arrive at it from calls on them only, and such a call runs the method
under the context that its selector makes of the object (`closed_receiving`). Under object sensitivity the
context then ends with the object, so no two receivers are merged. A static call of an instance method keeps
the context of its caller, but it brings no receiver.
-/

namespace PointsTo

/-- The variable that the statement assigns. -/
def Stmt.assigned? : Stmt → Option VarId
  | .new lhs _ | .copy lhs _ | .loadStatic lhs _ | .loadField lhs _ _ | .loadArray lhs _ => some lhs
  | .call c => c.result
  | .storeStatic _ _ | .storeField _ _ _ | .storeArray _ _ => none

namespace Program

/-- The variable holds the receiver of a method. -/
def IsThis (p : Program) (v : VarId) : Prop := ∃ d ∈ p.methods.toList, d.this = some v

instance (p : Program) : DecidablePred p.IsThis := fun v =>
  inferInstanceAs (Decidable (∃ d ∈ p.methods.toList, d.this = some v))

/-- No variable that holds a receiver is a parameter or assigned by a statement. -/
structure ThisUnassigned (p : Program) : Prop where
  params : ∀ d ∈ p.methods.toList, ∀ v ∈ d.params, ¬ p.IsThis v
  stmts : ∀ d ∈ p.methods.toList, ∀ stmt ∈ d.body, ∀ v ∈ stmt.assigned?, ¬ p.IsThis v

instance (p : Program) : Decidable p.ThisUnassigned :=
  decidable_of_iff ((∀ d ∈ p.methods.toList, ∀ v ∈ d.params, ¬ p.IsThis v) ∧
      ∀ d ∈ p.methods.toList, ∀ stmt ∈ d.body, ∀ v ∈ stmt.assigned?, ¬ p.IsThis v)
    ⟨fun h => ⟨h.1, h.2⟩, fun h => ⟨h.params, h.stmts⟩⟩

/-- A statement of the program assigns no variable that holds a receiver. -/
theorem ThisUnassigned.of_stmt {p : Program} (h : p.ThisUnassigned) {site : Site} {stmt : Stmt} {v : VarId}
    (hs : p.stmt? site = some stmt) (hv : stmt.assigned? = some v) : ¬ p.IsThis v := by
  obtain ⟨d, hd, hb⟩ := stmt?_eq_some_iff.1 hs
  exact h.stmts d (mem_methods hd) stmt (List.mem_of_getElem? hb) v hv

/-- A receiver stands under the context that the policy makes of it, and nothing flows to a variable that
holds one. -/
def Receiving (p : Program) (element : AbstractObject → ContextElement) (k : Nat) : Fact → Prop
  | .pointsTo (.var c v) o => p.IsThis v → ∃ a, (Heap.ofProgram p).object? o.object = some a ∧
      c = o.heapContext.append (element a) k
  | .flow _ (.var _ v) => ¬ p.IsThis v
  | _ => True

end Program

section

variable {p : Program} {name : String} {element : AbstractObject → ContextElement} {k heapK : Nat}
  {entries : List MethodId}

theorem closed_receiving (hthis : p.ThisUnassigned) :
    Closed (p.setup (.receiverBased name element k heapK)) entries (p.Receiving element k) where
  empty := trivial
  entry _ _ := trivial
  flow {l l' o} hf _ := by
    cases l' with
    | var c v => exact fun hv => absurd hv hf
    | _ => trivial
  rule := by
    rintro g f hr -
    cases hr with
    | objectContext | methodContext | holder | held | source | target | occurs | entry | caller |
        callee | result => trivial
    | effect hs he =>
      cases he with
      | new => exact fun hv => absurd hv (hthis.of_stmt hs rfl)
      | copy | loadStatic => exact hthis.of_stmt hs rfl
      | storeStatic | call => trivial
    | access hs ha =>
      cases ha with
      | storeField | storeArray => trivial
      | loadField | loadArray => exact hthis.of_stmt hs rfl
    | invocation hi =>
      cases hi with
      | call => trivial
      | receiver hruns hm ht =>
        obtain ⟨-, -, -, a, m, ha, -, rfl⟩ := hruns
        intro _
        exact ⟨a, ha, rfl⟩
    | argument hs hm ha => exact hthis.params _ (Program.mem_methods hm) _ (List.of_mem_zip ha).2
    | returned hs hm hr hv => exact hthis.of_stmt hs hr

end

open Solver

/-- Object sensitivity does not merge receivers. Where nothing but a call can bring an object to a variable
that holds a receiver, every object there has made the context: the context consists of the last `k` elements
of the object's heap context with the object behind it. As the object is its last element, there is one
object only at such a variable under one context, though maybe under several heap contexts. -/
theorem receiver_of_context {p : Program} (hp : p.validate = .ok ()) (hthis : p.ThisUnassigned) {k : Nat}
    (hk : 1 ≤ k) (heapK : Nat) (order : WorklistOrder) (entries : List MethodId) (n : Nat) (s : State)
    (hs : solve (p.setup (.objectSensitive k heapK)) n entries (.initial order) = .ok () s) :
    ∀ m d this c, p.method? m = some d → d.this = some this →
      (∀ o, s.Found (.pointsTo (.var c this) o) →
        c.elements = Context.lastOf k (o.heapContext.elements ++ [.object o.object]) ∧
        c.elements.getLast? = some (.object o.object)) ∧
      ∀ o o', s.Found (.pointsTo (.var c this) o) → s.Found (.pointsTo (.var c this) o') →
        ∃ a, (Heap.ofProgram p).object? o.object = some a ∧ (Heap.ofProgram p).object? o'.object = some a := by
  intro m d this c hm hd
  have hset : (p.setup (.objectSensitive k heapK)).WellFormed := Program.wellFormed_setup hp
  have hreceiving : ∀ o, s.Found (.pointsTo (.var c this) o) →
      ∃ a, (Heap.ofProgram p).object? o.object = some a ∧
        c = o.heapContext.append (.object o.object) k := by
    intro o ho
    have hholds : p.IsThis this := ⟨d, Program.mem_methods hm, hd⟩
    obtain ⟨a, ha, hc⟩ := closed_of_found hset (closed_receiving hthis) hs ho hholds
    -- an object stands at the position of its id
    have hid : a.id = o.object := (Heap.allocated_of_object? hp ha).1
    refine ⟨a, ha, ?_⟩
    rw [← hid]
    exact hc
  have hlast : ∀ o, s.Found (.pointsTo (.var c this) o) →
      c.elements.getLast? = some (.object o.object) := by
    intro o ho
    obtain ⟨-, -, rfl⟩ := hreceiving o ho
    exact Context.getLast?_append hk
  refine ⟨fun o ho => ⟨?_, hlast o ho⟩, ?_⟩
  · obtain ⟨-, -, rfl⟩ := hreceiving o ho
    rfl
  · intro o o' ho ho'
    obtain ⟨a, ha, -⟩ := hreceiving o ho
    have hsame := (hlast o ho).symm.trans (hlast o' ho')
    simp only [Option.some.injEq, ContextElement.object.injEq] at hsame
    exact ⟨a, ha, hsame ▸ ha⟩

namespace Sample

theorem thisUnassigned_recursive : recursive.ThisUnassigned := by decide

end Sample

/-- In the recursive program both objects arrive at the receiver of the second method, under several
contexts, and under each of them one object only. -/
theorem receiver_of_context_recursive : Sample.recursive.validate = .ok () ∧
    Sample.recursive.ThisUnassigned ∧ 1 ≤ 2 ∧ ∃ s,
    solve (Sample.recursive.setup (.objectSensitive 2 1)) 60 [0] (.initial .fifo) = .ok () s ∧
    (((Sample.recursive.setup (.objectSensitive 2 1)).solution s).contextsOf 1).map (·.elements) =
      [[.object 0], [.object 0, .object 1], [.object 1, .object 1]] ∧
    (((Sample.recursive.setup (.objectSensitive 2 1)).solution s).varPointsTo 3).toList = [0, 1] ∧
    ∀ c o, s.Found (.pointsTo (.var c 3) o) →
      c.elements = Context.lastOf 2 (o.heapContext.elements ++ [.object o.object]) ∧
      c.elements.getLast? = some (.object o.object) := by
  obtain ⟨⟨⟩, s, hs, hcontexts, hvar⟩ := Ends.exists_ok (by decide +kernel :
    Ends (solve (Sample.recursive.setup (.objectSensitive 2 1)) 60 [0]) (.initial .fifo)
      (fun _ s => (((Sample.recursive.setup (.objectSensitive 2 1)).solution s).contextsOf 1).map
          (·.elements) = [[.object 0], [.object 0, .object 1], [.object 1, .object 1]] ∧
        (((Sample.recursive.setup (.objectSensitive 2 1)).solution s).varPointsTo 3).toList = [0, 1])
      fun _ _ => False)
  have hk : 1 ≤ 2 := by decide
  refine ⟨Sample.validate_recursive, Sample.thisUnassigned_recursive, hk, s, hs, hcontexts, hvar, ?_⟩
  intro c
  exact (receiver_of_context Sample.validate_recursive Sample.thisUnassigned_recursive hk 1 .fifo [0] 60
    s hs 1 Sample.looping 3 c rfl rfl).1

end PointsTo
