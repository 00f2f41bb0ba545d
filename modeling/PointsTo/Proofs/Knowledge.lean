import PointsTo.Proofs.Arena

/-!
# What a state knows

A state has `Found` the facts that stand in its tables, and others are `Waiting`: a method in the
queue of pending methods will be reachable, and objects in the worklist have arrived at a pointer but
are not yet in its set. What is found or waiting the state `Knows`.

`State.WellFormed` says that every id in a state was handed out by its arena and that no table lists
anything twice. `State.Sound` adds what the rules of the analysis keep whatever they do, also when they
fail halfway: the state knows members of a given family of facts only, and what a location points to is
known at the target of every flow edge.

`State.Grows` is the order in which states grow: no id changes its meaning, and nothing found is lost.
-/

namespace PointsTo

namespace State

/-- The facts that stand in the tables of a state. -/
def Found (s : State) : Fact → Prop
  | .entry m => ∃ i ∈ s.callGraph.entries, s.arena.method? i = some m
  | .reachable m => ∃ i ∈ s.callGraph.reachable, s.arena.method? i = some m
  | .pointsTo l o => ∃ i j, j ∈ s.pointsTo i ∧ s.arena.location? i = some l ∧
      s.arena.object? j = some o
  | .flow l l' => ∃ i j, j ∈ s.flow.successors i ∧ s.arena.location? i = some l ∧
      s.arena.location? j = some l'
  | .call kind x m => ∃ e ∈ s.callGraph.edges, e.kind = kind ∧ s.arena.site? e.site = some x ∧
      s.arena.method? e.callee = some m
  | f => s.arena.Holds f

/-- The facts that will stand in the tables once the queue and the worklist are empty. -/
def Waiting (s : State) : Fact → Prop
  | .reachable m => ∃ i ∈ s.pending.toList, s.arena.method? i = some m
  | .pointsTo l o => ∃ a ∈ s.worklist.toList, s.arena.location? a.pointer = some l ∧
      ∃ j ∈ a.objects, s.arena.object? j = some o
  | _ => False

/-- The facts that are found or waiting. -/
def Knows (s : State) (f : Fact) : Prop := s.Found f ∨ s.Waiting f

/-- Whatever the fact entails is known, and no run ends at it. -/
def Covers (setup : Setup) (s : State) (g : Fact) : Prop :=
  (∀ f, Entails setup g f → s.Knows f) ∧ ∀ e, ¬Fault setup g e

/-- Every id in the state was handed out, and no table lists anything twice. -/
structure WellFormed (s : State) : Prop where
  arena : s.arena.WellFormed
  pointsTo : ∀ i j, j ∈ s.pointsTo i → j < s.arena.objects.size
  flow : ∀ i j, j ∈ s.flow.successors i →
    i < s.arena.pointers.size ∧ j < s.arena.pointers.size
  worklist : ∀ a ∈ s.worklist.toList, a.pointer < s.arena.pointers.size ∧
    ∀ j ∈ a.objects, j < s.arena.objects.size
  pending : ∀ i ∈ s.pending.toList, i < s.arena.methods.size
  entries : ∀ i ∈ s.callGraph.entries, i < s.arena.methods.size
  reachable : ∀ i ∈ s.callGraph.reachable, i < s.arena.methods.size
  edges : ∀ e ∈ s.callGraph.edges, e.site < s.arena.sites.size ∧ e.callee < s.arena.methods.size
  nodup_flow : ∀ i, (s.flow.successors i).Nodup
  nodup_reachable : s.callGraph.reachable.Nodup
  /-- No two call edges lead from one site to one callee. -/
  nodup_edges : (s.callGraph.edges.map fun e => (e.site, e.callee)).Nodup

/-- What the rules keep whatever they do: the state is well formed, it knows members of the family
`F` only, and nothing that a location points to is lost at a flow edge. -/
structure Sound (setup : Setup) (F : Fact → Prop) (s : State) : Prop where
  wellFormed : s.WellFormed
  /-- The heap describes every object. -/
  heap : ∀ o, s.Found (.object o) → ∃ a, setup.heap.object? o.object = some a
  /-- A call edge stands for a call statement and has its kind. -/
  calls : ∀ kind x m, s.Found (.call kind x m) →
    ∃ d, setup.program.stmt? x.site = some (.call d) ∧ kind = .ofMode d.mode
  knows : ∀ f, s.Knows f → F f
  /-- What a location points to is known at the targets of its flow edges. -/
  flows : ∀ l l' o, s.Found (.flow l l') → s.Found (.pointsTo l o) → s.Knows (.pointsTo l' o)

/-- No id changes its meaning, nothing found is lost, lists only grow at their end, and no counter
falls. -/
structure Grows (s t : State) : Prop where
  arena : s.arena.Grows t.arena
  flow : ∀ i, s.flow.successors i <+: t.flow.successors i
  entries : s.callGraph.entries <+: t.callGraph.entries
  reachable : s.callGraph.reachable <+: t.callGraph.reachable
  edges : s.callGraph.edges <+: t.callGraph.edges
  arrivals : s.stats.arrivals ≤ t.stats.arrivals
  propagations : s.stats.propagations ≤ t.stats.propagations
  dispatchMisses : s.stats.dispatchMisses ≤ t.stats.dispatchMisses

theorem Grows.refl (s : State) : s.Grows s where
  arena := .refl _
  flow _ := List.prefix_rfl
  entries := List.prefix_rfl
  reachable := List.prefix_rfl
  edges := List.prefix_rfl
  arrivals := Nat.le_refl _
  propagations := Nat.le_refl _
  dispatchMisses := Nat.le_refl _

theorem Grows.trans {s t u : State} (h : s.Grows t) (h' : t.Grows u) : s.Grows u where
  arena := h.arena.trans h'.arena
  flow i := (h.flow i).trans (h'.flow i)
  entries := h.entries.trans h'.entries
  reachable := h.reachable.trans h'.reachable
  edges := h.edges.trans h'.edges
  arrivals := Nat.le_trans h.arrivals h'.arrivals
  propagations := Nat.le_trans h.propagations h'.propagations
  dispatchMisses := Nat.le_trans h.dispatchMisses h'.dispatchMisses

/-- What a location points to is in the set of its pointer. -/
theorem exists_mem_pointsTo_of_found {s : State} {i : PointerId} {l : Location} {o : HeapObject}
    (hl : s.arena.location? i = some l) (h : s.Found (.pointsTo l o)) :
    ∃ k ∈ s.pointsTo i, s.arena.object? k = some o := by
  obtain ⟨i', k, hk, hl', ho⟩ := h
  rw [Arena.eq_of_location? hl' hl] at hk
  exact ⟨k, hk, ho⟩

/-- What is covered stays covered as long as nothing known is lost. -/
theorem Covers.mono {setup : Setup} {s t : State} {g : Fact} (hg : s.Covers setup g)
    (h : ∀ f, s.Knows f → t.Knows f) : t.Covers setup g :=
  ⟨fun f hf => h f (hg.1 f hf), hg.2⟩

/-- What is found depends on the tables only. -/
theorem found_of_eq {s t : State} (ha : t.arena = s.arena) (hf : t.flow = s.flow)
    (hc : t.callGraph = s.callGraph) {f : Fact} (h : s.Found f) : t.Found f := by
  obtain ⟨arena, flow, worklist, pending, callGraph, stats⟩ := t
  cases ha
  cases hf
  cases hc
  cases f <;> exact h

/-- What waits depends on the ids, the queue and the worklist only. -/
theorem waiting_of_eq {s t : State} (ha : t.arena = s.arena) (hp : t.pending = s.pending)
    (hw : t.worklist = s.worklist) {f : Fact} (h : s.Waiting f) : t.Waiting f := by
  obtain ⟨arena, flow, worklist, pending, callGraph, stats⟩ := t
  cases ha
  cases hp
  cases hw
  cases f <;> exact h

/-- What is found stays found. -/
theorem Grows.found {s t : State} (h : s.Grows t) {f : Fact} (hf : s.Found f) : t.Found f := by
  cases f with
  | context c =>
    obtain ⟨i, hi⟩ := hf
    exact ⟨i, h.arena.contexts i c hi⟩
  | object o =>
    obtain ⟨i, hi⟩ := hf
    exact ⟨i, h.arena.object? hi⟩
  | method m =>
    obtain ⟨i, hi⟩ := hf
    exact ⟨i, h.arena.method? hi⟩
  | site x =>
    obtain ⟨i, hi⟩ := hf
    exact ⟨i, h.arena.site? hi⟩
  | location l =>
    obtain ⟨i, hi⟩ := hf
    exact ⟨i, h.arena.location? hi⟩
  | entry m =>
    obtain ⟨i, hi, hm⟩ := hf
    exact ⟨i, h.entries.subset hi, h.arena.method? hm⟩
  | reachable m =>
    obtain ⟨i, hi, hm⟩ := hf
    exact ⟨i, h.reachable.subset hi, h.arena.method? hm⟩
  | pointsTo l o =>
    obtain ⟨i, j, hj, hl, ho⟩ := hf
    exact ⟨i, j, h.arena.pointsTo i j hj, h.arena.location? hl, h.arena.object? ho⟩
  | flow l l' =>
    obtain ⟨i, j, hj, hl, hl'⟩ := hf
    exact ⟨i, j, (h.flow i).subset hj, h.arena.location? hl, h.arena.location? hl'⟩
  | call kind x m =>
    obtain ⟨e, he, hk, hx, hm⟩ := hf
    exact ⟨e, h.edges.subset he, hk, h.arena.site? hx, h.arena.method? hm⟩

/-- No method has become reachable if the list of reachable methods is the same. -/
theorem Grows.found_reachable {s t : State} (h : s.Grows t) (hs : s.WellFormed)
    (hr : t.callGraph.reachable = s.callGraph.reachable) {m : MethodInstance}
    (hg : t.Found (.reachable m)) : s.Found (.reachable m) := by
  obtain ⟨i, hi, hm⟩ := hg
  rw [hr] at hi
  obtain ⟨m', hm'⟩ := hs.arena.method i (hs.reachable i hi)
  have heq : m' = m := Option.some.inj ((h.arena.method? hm').symm.trans hm)
  exact ⟨i, hi, heq ▸ hm'⟩

/-- Nothing new occurs but the thing interned, if only the arena has changed. -/
theorem found_of_interns {s : State} {b : Arena} {f g : Fact} (hw : s.WellFormed)
    (hb : s.arena.Interns b f) (hg : { s with arena := b }.Found g) :
    s.Found g ∨ g = f ∧ b.Holds g := by
  have hpts : ∀ i, b.pointsTo i = s.pointsTo i := hb.pointsTo
  -- facts of the tables are about ids of `s`, which mean in `b` what they mean in `s`
  cases g with
  | entry m =>
    obtain ⟨i, hi, hm⟩ := hg
    obtain ⟨m', hm'⟩ := hw.arena.method i (hw.entries i hi)
    exact Or.inl ⟨i, hi, by rw [hm', ← hb.grows.method? hm', hm]⟩
  | reachable m =>
    obtain ⟨i, hi, hm⟩ := hg
    obtain ⟨m', hm'⟩ := hw.arena.method i (hw.reachable i hi)
    exact Or.inl ⟨i, hi, by rw [hm', ← hb.grows.method? hm', hm]⟩
  | pointsTo l o =>
    obtain ⟨i, j, hj, hl, ho⟩ := hg
    have hj : j ∈ s.pointsTo i := hpts i ▸ hj
    obtain ⟨l', hl'⟩ := hw.arena.location i (Arena.lt_of_mem_pointsTo hj)
    obtain ⟨o', ho'⟩ := hw.arena.object j (hw.pointsTo i j hj)
    exact Or.inl ⟨i, j, hj, by rw [hl', ← hb.grows.location? hl', hl],
      by rw [ho', ← hb.grows.object? ho', ho]⟩
  | flow l l' =>
    obtain ⟨i, j, hj, hl, hl'⟩ := hg
    obtain ⟨m, hm⟩ := hw.arena.location i (hw.flow i j hj).1
    obtain ⟨m', hm'⟩ := hw.arena.location j (hw.flow i j hj).2
    exact Or.inl ⟨i, j, hj, by rw [hm, ← hb.grows.location? hm, hl],
      by rw [hm', ← hb.grows.location? hm', hl']⟩
  | call kind x m =>
    obtain ⟨e, he, hk, hx, hm⟩ := hg
    obtain ⟨x', hx'⟩ := hw.arena.site e.site (hw.edges e he).1
    obtain ⟨m', hm'⟩ := hw.arena.method e.callee (hw.edges e he).2
    exact Or.inl ⟨e, he, hk, by rw [hx', ← hb.grows.site? hx', hx],
      by rw [hm', ← hb.grows.method? hm', hm]⟩
  | context c =>
    have hg : b.Holds (.context c) := hg
    exact (hb.holds hw.arena hg).imp id fun h => ⟨h, hg⟩
  | object o =>
    have hg : b.Holds (.object o) := hg
    exact (hb.holds hw.arena hg).imp id fun h => ⟨h, hg⟩
  | method m =>
    have hg : b.Holds (.method m) := hg
    exact (hb.holds hw.arena hg).imp id fun h => ⟨h, hg⟩
  | site x =>
    have hg : b.Holds (.site x) := hg
    exact (hb.holds hw.arena hg).imp id fun h => ⟨h, hg⟩
  | location l =>
    have hg : b.Holds (.location l) := hg
    exact (hb.holds hw.arena hg).imp id fun h => ⟨h, hg⟩

/-- Nothing new waits if only the arena has changed. -/
theorem waiting_of_interns {s : State} {b : Arena} {f g : Fact} (hw : s.WellFormed)
    (hb : s.arena.Interns b f) (hg : { s with arena := b }.Waiting g) : s.Waiting g := by
  cases g with
  | reachable m =>
    obtain ⟨i, hi, hm⟩ := hg
    obtain ⟨m', hm'⟩ := hw.arena.method i (hw.pending i hi)
    exact ⟨i, hi, by rw [hm', ← hb.grows.method? hm', hm]⟩
  | pointsTo l o =>
    obtain ⟨a, ha, hl, j, hj, ho⟩ := hg
    obtain ⟨l', hl'⟩ := hw.arena.location _ (hw.worklist a ha).1
    obtain ⟨o', ho'⟩ := hw.arena.object j ((hw.worklist a ha).2 j hj)
    exact ⟨a, ha, by rw [hl', ← hb.grows.location? hl', hl], j, hj,
      by rw [ho', ← hb.grows.object? ho', ho]⟩
  | _ => exact hg.elim

/-- What waits stays so as long as the queue and the worklist lose nothing. -/
theorem waiting_of_subset {s t : State} (h : s.arena.Grows t.arena)
    (hp : s.pending.toList ⊆ t.pending.toList) (hw : s.worklist.toList ⊆ t.worklist.toList)
    {f : Fact} (hf : s.Waiting f) : t.Waiting f := by
  cases f with
  | reachable m =>
    obtain ⟨i, hi, hm⟩ := hf
    exact ⟨i, hp hi, h.method? hm⟩
  | pointsTo l o =>
    obtain ⟨a, ha, hl, j, hj, ho⟩ := hf
    exact ⟨a, hw ha, h.location? hl, j, hj, h.object? ho⟩
  | _ => exact hf.elim

end State

/-! ## What one rule does to a state -/

/-- How a state changes while a rule of the analysis is at work. Nothing becomes reachable and no
points-to set changes, since callees and objects only wait; every call edge that is new has been
installed whole; and `misses` calls had no target. -/
structure Evolves (setup : Setup) (F : Fact → Prop) (misses : Nat) (s t : State) : Prop where
  grows : s.Grows t
  sound : t.Sound setup F
  entries : t.callGraph.entries = s.callGraph.entries
  reachable : t.callGraph.reachable = s.callGraph.reachable
  pointsTo : ∀ i, t.pointsTo i = s.pointsTo i
  waiting : ∀ f, s.Waiting f → t.Waiting f
  calls : ∀ kind x m, t.Found (.call kind x m) → s.Found (.call kind x m) ∨
    t.Covers setup (.call kind x m)
  misses_eq : t.stats.dispatchMisses = s.stats.dispatchMisses + misses

namespace Evolves

variable {setup : Setup} {F : Fact → Prop} {s t u : State} {m n : Nat}

theorem knows (h : Evolves setup F m s t) {f : Fact} (hf : s.Knows f) : t.Knows f :=
  hf.imp h.grows.found (h.waiting f)

theorem covers (h : Evolves setup F m s t) {g : Fact} (hg : s.Covers setup g) : t.Covers setup g :=
  hg.mono fun _ => h.knows

theorem refl (hs : s.Sound setup F) : Evolves setup F 0 s s where
  grows := .refl s
  sound := hs
  entries := rfl
  reachable := rfl
  pointsTo _ := rfl
  waiting _ h := h
  calls _ _ _ h := Or.inl h
  misses_eq := rfl

theorem trans (h : Evolves setup F m s t) (h' : Evolves setup F n t u) :
    Evolves setup F (m + n) s u where
  grows := h.grows.trans h'.grows
  sound := h'.sound
  entries := h'.entries.trans h.entries
  reachable := h'.reachable.trans h.reachable
  pointsTo i := (h'.pointsTo i).trans (h.pointsTo i)
  waiting f hf := h'.waiting f (h.waiting f hf)
  calls kind x c hc := by
    rcases h'.calls kind x c hc with hc | hc
    · exact (h.calls kind x c hc).imp id h'.covers
    · exact Or.inr hc
  misses_eq := by rw [h'.misses_eq, h.misses_eq, Nat.add_assoc]

/-- A points-to fact that is found was found before. -/
theorem found_pointsTo (h : Evolves setup F m s t) (hs : s.Sound setup F) {l : Location}
    {o : HeapObject} (hg : t.Found (.pointsTo l o)) : s.Found (.pointsTo l o) := by
  obtain ⟨i, j, hj, hl, ho⟩ := hg
  rw [h.pointsTo] at hj
  obtain ⟨l', hl'⟩ := hs.wellFormed.arena.location i (Arena.lt_of_mem_pointsTo hj)
  obtain ⟨o', ho'⟩ := hs.wellFormed.arena.object j (hs.wellFormed.pointsTo i j hj)
  have heq : l' = l := Option.some.inj ((h.grows.arena.location? hl').symm.trans hl)
  have heq' : o' = o := Option.some.inj ((h.grows.arena.object? ho').symm.trans ho)
  exact ⟨i, j, hj, heq ▸ hl', heq' ▸ ho'⟩

/-- A method that is reachable was so before. -/
theorem found_reachable (h : Evolves setup F m s t) (hs : s.Sound setup F) {c : MethodInstance}
    (hg : t.Found (.reachable c)) : s.Found (.reachable c) :=
  h.grows.found_reachable hs.wellFormed h.reachable hg

/-- A fact that is found was found before, or it is covered. -/
theorem found (h : Evolves setup F m s t) (hs : s.Sound setup F) {g : Fact} (hg : t.Found g) :
    s.Found g ∨ t.Covers setup g := by
  cases g with
  | entry c =>
    obtain ⟨i, hi, hc⟩ := hg
    rw [h.entries] at hi
    obtain ⟨c', hc'⟩ := hs.wellFormed.arena.method i (hs.wellFormed.entries i hi)
    have heq : c' = c := Option.some.inj ((h.grows.arena.method? hc').symm.trans hc)
    exact Or.inl ⟨i, hi, heq ▸ hc'⟩
  | reachable c => exact Or.inl (h.found_reachable hs hg)
  | pointsTo l o => exact Or.inl (h.found_pointsTo hs hg)
  | call kind x c => exact h.calls kind x c hg
  | flow l l' =>
    obtain ⟨i, j, -, hl, hl'⟩ := hg
    refine Or.inr ⟨fun f hf => ?_, nofun⟩
    cases hf with
    | source => exact Or.inl ⟨i, hl⟩
    | target => exact Or.inl ⟨j, hl'⟩
  | object o =>
    obtain ⟨i, hi⟩ := hg
    obtain ⟨k, -, hk⟩ := Arena.object?_eq_some_iff.1 hi
    refine Or.inr ⟨fun f hf => ?_, nofun⟩
    cases hf
    exact Or.inl ⟨k, hk⟩
  | method c =>
    obtain ⟨i, hi⟩ := hg
    obtain ⟨k, -, hk⟩ := Arena.method?_eq_some_iff.1 hi
    refine Or.inr ⟨fun f hf => ?_, nofun⟩
    cases hf
    exact Or.inl ⟨k, hk⟩
  | context c | site x | location l => exact Or.inr ⟨nofun, nofun⟩

end Evolves

end PointsTo
