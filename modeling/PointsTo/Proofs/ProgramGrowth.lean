import PointsTo.Proofs.Simulation

/-!
# Larger programs, more facts

A program is `Program.ExtendedBy` another if the other has the same classes, fields and methods, and
some bodies have more statements behind those they had. Appending statements leaves every site and every
target of a call as it was (`Program.ExtendedBy.resolve?_eq`), but it renumbers the abstract objects of
all later methods. `Translation.renaming` takes an object to the one allocated at the same site, also
inside contexts; it commutes with what the shipped policies make of contexts (`selector_map`). So the
larger program simulates the smaller one, and whatever the smaller one derives, renamed, the larger one
derives as well (`grows_of_extendedBy`).
-/

namespace PointsTo

/-- The method with statements behind its body and more return variables. -/
def MethodDecl.ExtendedBy (d d' : MethodDecl) : Prop :=
  ∃ stmts returns, d' = { d with body := d.body ++ stmts, returns := d.returns ++ returns }

/-- The program with statements behind the bodies of its methods, and more variables. -/
structure Program.ExtendedBy (p p' : Program) : Prop where
  classes : p'.classes = p.classes
  fields : p'.fields = p.fields
  rootClass : p'.rootClass = p.rootClass
  vars : ∀ {v d}, p.var? v = some d → p'.var? v = some d
  methodCount : p'.methods.size = p.methods.size
  method : ∀ {m d}, p.method? m = some d → ∃ d', p'.method? m = some d' ∧ d.ExtendedBy d'

namespace Program.ExtendedBy

variable {p p' : Program} (h : p.ExtendedBy p')

include h

theorem method?_eq_none {m : MethodId} (hm : p.method? m = none) : p'.method? m = none := by
  rw [method?, Array.getElem?_eq_none_iff] at hm ⊢
  rw [h.methodCount]
  exact hm

/-- Every statement stays where it is. -/
theorem stmt?_eq_some {site : Site} {stmt : Stmt} (hs : p.stmt? site = some stmt) :
    p'.stmt? site = some stmt := by
  obtain ⟨d, hd, hb⟩ := stmt?_eq_some_iff.1 hs
  obtain ⟨d', hd', stmts, returns, rfl⟩ := h.method hd
  obtain ⟨hlt, -⟩ := List.getElem?_eq_some_iff.1 hb
  exact stmt?_eq_some_iff.2 ⟨_, hd', (List.getElem?_append_left hlt).trans hb⟩

theorem class?_eq (c : ClassId) : p'.class? c = p.class? c := by
  rw [class?, class?, h.classes]

theorem declared?_eq (c : ClassId) (subsignature : String) :
    p'.declared? c subsignature = p.declared? c subsignature := by
  rw [declared?, declared?, h.class?_eq]

theorem resolveStatic_eq (d : Call) : p'.resolveStatic d = p.resolveStatic d := by
  unfold resolveStatic className
  rw [h.declared?_eq, h.class?_eq]

theorem concrete?_eq (c : ClassId) (subsignature : String) :
    p'.concrete? c subsignature = p.concrete? c subsignature := by
  rw [concrete?, concrete?, h.declared?_eq]
  congr 1
  funext m
  -- what is appended to a method does not make it abstract
  cases hm : p.method? m with
  | none => rw [h.method?_eq_none hm]
  | some d =>
    obtain ⟨d', hd', stmts, returns, rfl⟩ := h.method hm
    rw [hd']
    rfl

theorem dispatchWithin_eq (subsignature : String) (n : Nat) (c : ClassId) :
    p'.dispatchWithin subsignature n c = p.dispatchWithin subsignature n c := by
  induction n generalizing c with
  | zero => rfl
  | succ n ih =>
    rw [dispatchWithin, dispatchWithin, h.concrete?_eq, superclass?, superclass?, h.class?_eq]
    congr 2
    funext c'
    exact ih c'

theorem dispatch_eq (c : ClassId) (subsignature : String) :
    p'.dispatch c subsignature = p.dispatch c subsignature := by
  rw [dispatch, dispatch, h.classes, h.dispatchWithin_eq]

/-- Every call reaches from every receiver what it reached before. -/
theorem resolve?_eq (ty : TypeRef) (d : Call) : p'.resolve? ty d = p.resolve? ty d := by
  have hclass : p'.dispatchClass? ty = p.dispatchClass? ty := by
    cases ty with
    | ofClass c => rfl
    | arrayOf elem => exact h.rootClass
  unfold resolve?
  simp only [h.declared?_eq, h.dispatch_eq, hclass]

end Program.ExtendedBy

/-! ## Renaming objects -/

/-- The object of `h'` that is allocated where `o` is allocated in `h`. -/
def Heap.counterpart (h h' : Heap) (o : ObjId) : ObjId :=
  (((h.object? o).bind fun a => h'.objectAt? a.site).map (·.id)).getD o

/-- The element with an object renamed. -/
def ContextElement.rename (ρ : ObjId → ObjId) : ContextElement → ContextElement
  | .object o => .object (ρ o)
  | e => e

/-- Every object of `p` is renamed to the one that `p'` allocates at the same site, also inside
contexts. -/
def Translation.renaming (p p' : Program) : Translation where
  methodContext c := c.map (.rename ((Heap.ofProgram p).counterpart (.ofProgram p')))
  heapContext c := c.map (.rename ((Heap.ofProgram p).counterpart (.ofProgram p')))
  object := (Heap.ofProgram p).counterpart (.ofProgram p')

section

variable {p p' : Program} (hp : p.validate = .ok ()) (hp' : p'.validate = .ok ())
  (hext : p.ExtendedBy p')

include hp hp' hext

/-- The counterpart of an object has its site, its type and its container. -/
theorem counterpart_of_object? {i : ObjId} {a : AbstractObject}
    (ha : (Heap.ofProgram p).object? i = some a) : ∃ a',
    (Heap.ofProgram p').objectAt? a.site = some a' ∧
    (Heap.ofProgram p').object? a'.id = some a' ∧
    a'.id = (Translation.renaming p p').object i ∧
    a'.site = a.site ∧ a'.ty = a.ty ∧ a'.container = a.container := by
  obtain ⟨-, d, lhs, hd, hb, hcontainer⟩ := Heap.allocated_of_object? hp ha
  have hs : p'.stmt? a.site = some (.new lhs a.ty) :=
    hext.stmt?_eq_some (Program.stmt?_eq_some_iff.2 ⟨d, hd, hb⟩)
  obtain ⟨a', ha', hty⟩ := Heap.objectAt?_ofProgram hp' hs
  obtain ⟨hsite, hobject⟩ := Heap.object?_of_objectAt? hp' ha'
  refine ⟨a', ha', hobject, ?_, hsite, hty, ?_⟩
  · show a'.id = (Heap.ofProgram p).counterpart (.ofProgram p') i
    rw [Heap.counterpart, ha, Option.bind_some, ha']
    rfl
  · -- the container is the class of the method, and statements behind the body leave that alone
    obtain ⟨-, d', lhs', hd', -, hcontainer'⟩ := Heap.allocated_of_object? hp' hobject
    obtain ⟨d'', hd'', stmts, returns, rfl⟩ := hext.method hd
    rw [hsite, hd''] at hd'
    cases hd'
    exact hcontainer'.trans hcontainer.symm

end

/-- Renaming objects commutes with what a shipped policy makes of contexts, objects and receivers. -/
theorem selector_map (policy : ContextPolicy) (k heapK : Nat) (ρ : ObjId → ObjId) :
    (∀ c site m, (policy.selector k heapK).calleeContext (c.map (.rename ρ)) site none m =
      ((policy.selector k heapK).calleeContext c site none m).map (.rename ρ)) ∧
    (∀ c a a', (policy.selector k heapK).heapContext (c.map (.rename ρ)) a' =
      ((policy.selector k heapK).heapContext c a).map (.rename ρ)) ∧
    ∀ c site h a a' m, a'.id = ρ a.id → a'.container = a.container →
      (policy.selector k heapK).calleeContext (c.map (.rename ρ)) site (some ⟨h.map (.rename ρ), a'⟩) m =
        ((policy.selector k heapK).calleeContext c site (some ⟨h, a⟩) m).map (.rename ρ) := by
  cases policy with
  | insensitive => exact ⟨fun _ _ _ => rfl, fun _ _ _ => rfl, fun _ _ _ _ _ _ _ _ => rfl⟩
  | callSite =>
    have happend : ∀ (c : Context) site, (c.map (.rename ρ)).append (.callSite site) k =
        (c.append (.callSite site) k).map (.rename ρ) := by
      intro c site
      rw [Context.map_append]
      rfl
    exact ⟨fun c site _ => happend c site, fun _ _ _ => (Context.map_truncate heapK).symm,
      fun c site _ _ _ _ _ _ => happend c site⟩
  | object =>
    refine ⟨fun _ _ _ => (Context.map_truncate k).symm, fun _ _ _ => (Context.map_truncate heapK).symm,
      ?_⟩
    intro c site h a a' m hid _
    show (h.map (.rename ρ)).append (.object a'.id) k = (h.append (.object a.id) k).map (.rename ρ)
    rw [Context.map_append, hid]
    rfl
  | type =>
    refine ⟨fun _ _ _ => (Context.map_truncate k).symm, fun _ _ _ => (Context.map_truncate heapK).symm,
      ?_⟩
    intro c site h a a' m _ hcontainer
    show (h.map (.rename ρ)).append (.type a'.container) k =
      (h.append (.type a.container) k).map (.rename ρ)
    rw [Context.map_append, hcontainer]
    rfl

section

variable {p p' : Program} (hp : p.validate = .ok ()) (hp' : p'.validate = .ok ())
  (hext : p.ExtendedBy p')

include hp hp' hext

/-- An extended program simulates the program, up to renaming. -/
theorem simulated_of_extendedBy (policy : ContextPolicy) (k heapK : Nat) :
    (p.setup (policy.selector k heapK)).Simulated (p'.setup (policy.selector k heapK))
      (.renaming p p') := by
  obtain ⟨hstatic, hheap, hreceiver⟩ :=
    selector_map policy k heapK ((Heap.ofProgram p).counterpart (.ofProgram p'))
  refine ⟨?_, hext.stmt?_eq_some, ?_, hext.method?_eq_none, hext.resolveStatic_eq, hstatic, ?_, ?_⟩
  · cases policy <;> rfl
  · intro m d hd
    obtain ⟨d', hd', stmts, returns, rfl⟩ := hext.method hd
    exact ⟨_, hd', rfl, rfl, List.subset_append_left _ _⟩
  · intro site a ha
    obtain ⟨hsite, hobject⟩ := Heap.object?_of_objectAt? hp ha
    obtain ⟨a', ha', -, hid, -⟩ := counterpart_of_object? hp hp' hext hobject
    exact ⟨a', hsite ▸ ha', hid, fun c => hheap c a a'⟩
  · intro i a ha
    obtain ⟨a', -, hobject, hid, -, hty, hcontainer⟩ := counterpart_of_object? hp hp' hext ha
    have hai : a.id = i := (Heap.allocated_of_object? hp ha).1
    refine ⟨a', hid ▸ hobject, ?_, ?_⟩
    · intro d
      rw [hty]
      exact hext.resolve?_eq a.ty d
    · intro c site h m
      exact hreceiver c site h a a' m (hai ▸ hid) hcontainer

end

open Solver

/-- A larger program has all the facts of a smaller one. Once the run of a shipped policy on the
extended program ends well, so does the run on the program itself, given fuel for as many steps as it
may take, and whatever it finds, with every object renamed to the one of the same site, the other run
has found. No analysis runs without entries: `entryMethods` refuses an empty list. -/
theorem grows_of_extendedBy {p p' : Program} (hp : p.validate = .ok ()) (hp' : p'.validate = .ok ())
    (hext : p.ExtendedBy p') (policy : ContextPolicy) (k heapK : Nat) (order order' : WorklistOrder)
    (entries entries' : List MethodId) (hne : entries ≠ []) (hentries : ∀ m ∈ entries, m ∈ entries')
    (n' : Nat) (t : State)
    (ht : solve (p'.setup (policy.selector k heapK)) n' entries' (.initial order') = .ok () t) :
    (∀ n, p.stepBound k heapK ≤ n →
      ∃ s, solve (p.setup (policy.selector k heapK)) n entries (.initial order) = .ok () s) ∧
    (∀ i a, (Heap.ofProgram p).object? i = some a → ∃ a',
      (Heap.ofProgram p').object? ((Translation.renaming p p').object i) = some a' ∧
      a'.site = a.site) ∧
    ∀ n s, solve (p.setup (policy.selector k heapK)) n entries (.initial order) = .ok () s →
      (∀ l o, s.Found (.pointsTo l o) → t.Found
        (.pointsTo ((Translation.renaming p p').location l) ((Translation.renaming p p').heapObject o))) ∧
      (∀ m, s.Found (.reachable m) →
        t.Found (.reachable ((Translation.renaming p p').methodInstance m))) ∧
      ∀ kind x m, s.Found (.call kind x m) → t.Found (.call kind
        ((Translation.renaming p p').siteInstance x) ((Translation.renaming p p').methodInstance m)) := by
  have hset : (p.setup (policy.selector k heapK)).WellFormed := Program.wellFormed_setup hp
  have hset' : (p'.setup (policy.selector k heapK)).WellFormed := Program.wellFormed_setup hp'
  have hsim := simulated_of_extendedBy hp hp' hext policy k heapK
  obtain ⟨-, -, hcomplete⟩ := outcome_of_solve hset' ht
  refine ⟨?_, ?_, ?_⟩
  · intro n hn
    exact hsim.exists_solve hp hcomplete hentries hne order hn
  · intro i a ha
    obtain ⟨a', -, hobject, hid, hsite, -⟩ := counterpart_of_object? hp hp' hext ha
    exact ⟨a', hid ▸ hobject, hsite⟩
  · intro n s hs
    have hfound : ∀ f, s.Found f → (Translation.renaming p p').Pulls t.Found f := fun f =>
      hsim.pulls_of_solve hset hcomplete hentries hs
    exact ⟨fun l o => hfound (.pointsTo l o), fun m => hfound (.reachable m),
      fun kind x m => hfound (.call kind x m)⟩

namespace Sample

/-- The small program, but its second method allocates as well: `A id(A x) { x = new A; return x; }`. -/
def allocating : Program :=
  { program with methods := #[main, { identity with body := [.new 4 (.ofClass 0)] }] }

/-- Its first method has the statement `d = new A;` behind its body, which makes the second method's
object the third, and its second method `y = x; return y;`. -/
def extended : Program :=
  { program with
    methods := #[{ main with body := main.body ++ [.new 5 (.ofClass 0)] },
      { identity with body := [.new 4 (.ofClass 0), .copy 6 4], returns := [4, 6] }]
    vars := program.vars ++ #[⟨5, "d", 0⟩, ⟨6, "y", 1⟩] }

theorem extendedBy_extended : allocating.ExtendedBy extended where
  classes := rfl
  fields := rfl
  rootClass := rfl
  vars h := by
    obtain ⟨hlt, -⟩ := Array.getElem?_eq_some_iff.1 h
    exact (Array.getElem?_append_left hlt).trans h
  methodCount := rfl
  method := by
    intro m d hd
    rcases m with _ | _ | m
    · cases hd
      exact ⟨_, rfl, [.new 5 (.ofClass 0)], [], rfl⟩
    · cases hd
      exact ⟨_, rfl, [.copy 6 4], [6], rfl⟩
    · cases hd

end Sample

/-- The object of the second method is renamed from the second to the third, also in the contexts of the
receivers that the policy looks at. -/
theorem grows_of_extendedBy_sample :
    Sample.allocating.validate = .ok () ∧ Sample.extended.validate = .ok () ∧
    Sample.allocating.ExtendedBy Sample.extended ∧
    (Translation.renaming Sample.allocating Sample.extended).object 1 = 2 ∧ ∃ t,
    solve (Sample.extended.setup (ContextPolicy.object.selector 2 1)) 40 [0, 1] (.initial .fifo) =
      .ok () t ∧
    ∃ s, solve (Sample.allocating.setup (ContextPolicy.object.selector 2 1))
        (Sample.allocating.stepBound 2 1) [0] (.initial .lifo) = .ok () s ∧
      ∀ m, s.Found (.reachable m) → t.Found (.reachable
        ((Translation.renaming Sample.allocating Sample.extended).methodInstance m)) := by
  have hp : Sample.allocating.validate = .ok () := by rfl
  have hp' : Sample.extended.validate = .ok () := by rfl
  obtain ⟨⟨⟩, t, ht⟩ := exists_eq_ok (by decide +kernel :
    Ends (solve (Sample.extended.setup (ContextPolicy.object.selector 2 1)) 40 [0, 1])
      (.initial .fifo) (fun _ _ => True) fun _ _ => False)
  obtain ⟨hends, -, hfound⟩ := grows_of_extendedBy hp hp' Sample.extendedBy_extended .object 2 1
    .lifo .fifo [0] [0, 1] (by decide) (by decide) 40 t ht
  obtain ⟨s, hs⟩ := hends _ (Nat.le_refl _)
  exact ⟨hp, hp', Sample.extendedBy_extended, by decide +kernel, t, ht, s, hs, (hfound _ s hs).2.1⟩

end PointsTo
