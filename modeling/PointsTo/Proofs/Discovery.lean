import PointsTo.Proofs.Invariants

/-!
# Methods are discovered from their callers

A method comes to the list of reachable methods because it is an entry or because a call leads to it, and
call edges come from objects that arrive at variables. That the list can still be read as an order of
discovery, each method after one that calls it, rests on where objects can be: only at variables of
methods that are reachable or wait to be (`State.Lives`), and an arrival is only handled when no method
waits. `State.Tracked` says so of everything a state holds, the worklist included, and every step
preserves it. When a request fails, an object may wait at the receiver of a call that could not be
installed; the tables are still as they should be (`State.Discovered`).
-/

namespace PointsTo

namespace State

variable (s : State)

/-- The method is the one in which the site of the call edge stands. -/
def Calls (c : CSMethodId) (e : CallEdge CSSiteId CSMethodId) : Prop :=
  ∃ x, s.arena.sites.get? e.site = some x ∧ s.arena.methods.get? c = some x.caller

/-- The method is reachable or waits to be. -/
def Live (j : CSMethodId) : Prop := j ∈ s.callGraph.reachable ∨ j ∈ s.pending.toList

/-- A variable is one of a live method, under the method's context. -/
def Lives (setup : Setup) : Pointer → Prop
  | .var c v => ∃ x j, setup.program.var? v = some x ∧
      s.arena.methods.get? j = some ⟨c, x.method⟩ ∧ s.Live j
  | .instanceField .. | .staticField _ | .arraySlots _ => True

/-- The pointer points to something, or a flow edge starts or ends there. -/
def Touched (i : PointerId) : Prop :=
  (∃ o, o ∈ s.pointsTo i) ∨ ∃ j, j ∈ s.flow.successors i ∨ i ∈ s.flow.successors j

/-- Reachable methods are listed in an order of discovery, and all calls are between listed methods or
those that wait. -/
structure InOrder : Prop where
  nodup : s.callGraph.reachable.Nodup
  /-- A method is an entry, or it is called by one that stands before it. -/
  found : ∀ (n : Nat) (j : CSMethodId), s.callGraph.reachable[n]? = some j →
    j ∈ s.callGraph.entries ∨ ∃ e ∈ s.callGraph.edges, e.callee = j ∧
      ∃ k c, k < n ∧ s.callGraph.reachable[k]? = some c ∧ s.Calls c e
  callers : ∀ e ∈ s.callGraph.edges, ∃ c ∈ s.callGraph.reachable, s.Calls c e
  callees : ∀ e ∈ s.callGraph.edges, s.Live e.callee

/-- Moreover something is known only of variables of such methods. -/
structure Discovered (setup : Setup) : Prop extends s.InOrder where
  vars : ∀ i c v, s.arena.pointers.get? i = some (.var c v) → s.Touched i → s.Lives setup (.var c v)

/-- What a run preserves as long as nothing fails. -/
structure Tracked (setup : Setup) : Prop extends s.InOrder where
  /-- Only callees wait. -/
  pending : ∀ j ∈ s.pending.toList, ∃ e ∈ s.callGraph.edges, e.callee = j
  touched : ∀ i, s.Touched i → s.At (s.Lives setup) i
  arrivals : ∀ a ∈ s.worklist.toList, s.At (s.Lives setup) a.pointer

end State

open Solver

variable {setup : Setup} {s t u : State} {m : CSMethod} {j : CSMethodId}

theorem State.Calls.mono {c : CSMethodId} {e : CallEdge CSSiteId CSMethodId} (h : s.Calls c e)
    (ht : s.arena.Grows t.arena) : t.Calls c e := by
  obtain ⟨x, hx, hc⟩ := h
  exact ⟨x, ht.sites _ x hx, ht.methods c _ hc⟩

theorem State.Lives.mono {q : Pointer} (h : s.Lives setup q) (ht : s.arena.Grows t.arena)
    (hlive : ∀ j, s.Live j → t.Live j) : t.Lives setup q := by
  cases q with
  | var c v =>
    obtain ⟨x, j, hx, hj, hl⟩ := h
    exact ⟨x, j, hx, ht.methods j _ hj, hlive j hl⟩
  | instanceField | staticField | arraySlots => trivial

/-- The pointers that a rule may touch are those of its method. -/
theorem lives_of_within (hj : s.arena.methods.get? j = some m) (hl : s.Live j) {q : Pointer}
    (hq : q.Within setup.program.toProgram m) : s.Lives setup q := by
  cases q with
  | var c v =>
    obtain ⟨rfl, x, hx, hmethod⟩ := hq
    exact ⟨x, j, hx, hmethod ▸ hj, hl⟩
  | instanceField | staticField | arraySlots => trivial

namespace State.Tracked

theorem initial (order : WorklistOrder) : (State.initial order).Tracked setup where
  nodup := .nil
  found n j hn := nomatch hn
  callers e he := nomatch he
  callees e he := nomatch he
  pending j hj := nomatch hj
  touched i hi := by
    rcases hi with ⟨o, ho⟩ | ⟨j, hj | hj⟩
    · exact absurd (Arena.lt_of_mem_pointsTo ho) (Nat.not_lt_zero i)
    · exact absurd hj List.not_mem_nil
    · exact absurd hj List.not_mem_nil
  arrivals a ha := nomatch ha

/-- The worklist does not count in what is discovered. -/
theorem discovered {w : Worklist} (h : { s with worklist := w }.Tracked setup) :
    s.Discovered setup where
  nodup := h.nodup
  found := h.found
  callers := h.callers
  callees := h.callees
  vars i c v hi htouched := by
    obtain ⟨q, hq, hlives⟩ := h.touched i htouched
    obtain rfl : q = .var c v := Option.some.inj (hq.symm.trans hi)
    exact hlives

/-! ## Changes -/

/-- The list of reachable methods stays as it is, and what is new is in order. -/
theorem extend (hs : s.Tracked setup) (ht : s.Grows t)
    (hreach : t.callGraph.reachable = s.callGraph.reachable) (hlive : ∀ j, s.Live j → t.Live j)
    (hedges : ∀ e ∈ t.callGraph.edges, e ∈ s.callGraph.edges ∨
      (∃ c ∈ t.callGraph.reachable, t.Calls c e) ∧ t.Live e.callee)
    (hpending : ∀ j ∈ t.pending.toList, j ∈ s.pending.toList ∨ ∃ e ∈ t.callGraph.edges, e.callee = j)
    (htouched : ∀ i, t.Touched i → s.At (s.Lives setup) i ∨ t.At (t.Lives setup) i)
    (harrivals : ∀ a ∈ t.worklist.toList,
      s.At (s.Lives setup) a.pointer ∨ t.At (t.Lives setup) a.pointer) : t.Tracked setup := by
  have hat {i : PointerId} (h : s.At (s.Lives setup) i ∨ t.At (t.Lives setup) i) :
      t.At (t.Lives setup) i :=
    h.elim (fun h => h.mono ht.arena fun q hq => hq.mono ht.arena hlive) id
  refine ⟨⟨hreach ▸ hs.nodup, ?_, ?_, ?_⟩, ?_, fun i hi => hat (htouched i hi),
    fun a ha => hat (harrivals a ha)⟩
  · intro n j hn
    rw [hreach] at hn
    rcases hs.found n j hn with hj | ⟨e, he, hcallee, k, c, hk, hc, hcalls⟩
    · exact Or.inl (ht.entries.subset hj)
    · rw [hreach]
      exact Or.inr ⟨e, ht.edges.subset he, hcallee, k, c, hk, hc, hcalls.mono ht.arena⟩
  · intro e he
    rcases hedges e he with he | ⟨hcaller, -⟩
    · obtain ⟨c, hc, hcalls⟩ := hs.callers e he
      exact ⟨c, hreach ▸ hc, hcalls.mono ht.arena⟩
    · exact hcaller
  · intro e he
    rcases hedges e he with he | ⟨-, hcallee⟩
    · exact hlive _ (hs.callees e he)
    · exact hcallee
  · intro j hj
    rcases hpending j hj with hj | hj
    · obtain ⟨e, he, hcallee⟩ := hs.pending j hj
      exact ⟨e, ht.edges.subset he, hcallee⟩
    · exact hj

/-- Where pointers are linked, those are touched that were so before, and the linked ones. -/
theorem touched_of_links {P : Pointer → Prop} (hs : s.Tracked setup) (ht : Links P s t)
    {i : PointerId} (hi : t.Touched i) : s.At (s.Lives setup) i ∨ t.At P i := by
  rcases hi with ⟨o, ho⟩ | ⟨j, hj | hj⟩
  · exact Or.inl (hs.touched i (Or.inl ⟨o, ht.pointsTo i ▸ ho⟩))
  · rcases ht.flow i j hj with hj | ⟨hi, -⟩
    · exact Or.inl (hs.touched i (Or.inr ⟨j, Or.inl hj⟩))
    · exact Or.inr hi
  · rcases ht.flow j i hj with hj | ⟨-, hi⟩
    · exact Or.inl (hs.touched i (Or.inr ⟨j, Or.inr hj⟩))
    · exact Or.inr hi

theorem joins {P : Pointer → Prop} (hs : s.Tracked setup) (ht : Joins P s t)
    (hP : ∀ q, P q → t.Lives setup q) : t.Tracked setup := by
  have hnew {i : PointerId} (h : t.At P i) : t.At (t.Lives setup) i := h.mono (.refl _) hP
  refine hs.extend ht.grows (by rw [ht.callGraph]) (fun j hj => ?_) (fun e he => Or.inl ?_)
    (fun j hj => Or.inl ?_) (fun i hi => (hs.touched_of_links ht.toLinks hi).imp id hnew)
    fun a ha => (ht.arrivals a ha).imp (hs.arrivals a) hnew
  · rwa [State.Live, ht.callGraph, ht.pending]
  · rwa [ht.callGraph] at he
  · rwa [ht.pending] at hj

/-- What is changed by rules that work for a reachable method. -/
theorem change (hs : s.Tracked setup) {k : CSMethodId} (hk : k ∈ s.callGraph.reachable)
    (hm : s.arena.methods.get? k = some m) (h : Change setup m s t) : t.Tracked setup := by
  cases h with
  | join ht =>
    have hm := ht.grows.arena.methods k m hm
    refine hs.joins ht fun q hq => lives_of_within hm (Or.inl ?_) hq
    rwa [ht.callGraph]
  | @again i j n old callee ht =>
    have hm := ht.grows.arena.methods k m hm
    have hlive {j : CSMethodId} (hj : s.Live j) : t.Live j := by
      rwa [State.Live, ht.callGraph, ht.pending]
    rw [CallGraph.hasEdge_iff] at old
    obtain ⟨e, he, heq⟩ := old
    have hcallee : t.Live j := hlive (heq.2 ▸ hs.callees e he)
    exact hs.joins ht fun q hq => hq.elim (lives_of_within hm (hlive (Or.inl hk)))
      (lives_of_within callee hcallee)
  | @call kind i j x n d decl new links callGraph pending caller whole =>
    have hm := links.grows.arena.methods k m hm
    rw [addCall_eq new] at callGraph pending
    have hreach : t.callGraph.reachable = s.callGraph.reachable := by
      rw [callGraph, CallGraph.reachable_withEdge]
    have hqueue : t.pending.toList = s.pending.toList ++ [j] := by rw [pending, Deque.toList_push]
    have hedges : t.callGraph.edges = s.callGraph.edges ++ [⟨kind, i, j⟩] := by
      rw [callGraph, CallGraph.edges_withEdge]
    have hk : k ∈ t.callGraph.reachable := hreach ▸ hk
    have hcallee : t.Live j :=
      Or.inr (hqueue ▸ List.mem_append_right _ (List.mem_singleton.2 rfl))
    have hnew {i : PointerId} (h : t.At (Between setup m n) i) : t.At (t.Lives setup) i :=
      h.mono (.refl _) fun q hq => hq.elim (lives_of_within hm (Or.inl hk))
        (lives_of_within whole.callee hcallee)
    refine hs.extend links.grows hreach ?_ ?_ ?_
      (fun i hi => (hs.touched_of_links links hi).imp id hnew)
      fun a ha => (links.arrivals a ha).imp (hs.arrivals a) hnew
    · intro j' hj'
      rw [State.Live, hreach, hqueue]
      exact hj'.imp id (List.mem_append_left _)
    · intro e he
      rw [hedges, List.mem_append, List.mem_singleton] at he
      refine he.imp id ?_
      rintro rfl
      exact ⟨⟨k, hk, x, whole.site, caller ▸ hm⟩, hcallee⟩
    · intro j' hj'
      rw [hqueue, List.mem_append, List.mem_singleton] at hj'
      refine hj'.imp id fun hj' => ⟨⟨kind, i, j⟩, ?_, hj'.symm⟩
      rw [hedges]
      exact List.mem_append_right _ (List.mem_singleton.2 rfl)

theorem changes (hs : s.Tracked setup) {k : CSMethodId} (hk : k ∈ s.callGraph.reachable)
    (hm : s.arena.methods.get? k = some m) (h : Changes setup m s t) : t.Tracked setup := by
  -- the method stays reachable while its rules are at work
  suffices t.Tracked setup ∧ s.Grows t from this.1
  induction h with
  | refl => exact ⟨hs, .refl s⟩
  | tail _ hlast ih =>
    obtain ⟨hs, hgrows⟩ := ih
    have hk := hgrows.reachable.subset hk
    exact ⟨hs.change hk (hgrows.arena.methods k m hm) hlast, hgrows.trans hlast.grows⟩

/-! ## Steps -/

/-- An entry or a callee is found after the methods that are listed already. -/
theorem reach (hs : s.Tracked setup) (hnew : j ∉ s.callGraph.reachable)
    (hwhy : j ∈ s.callGraph.entries ∨ ∃ e ∈ s.callGraph.edges, e.callee = j) :
    (Solver.reach s j).Tracked setup := by
  have hlist : (Solver.reach s j).callGraph.reachable = s.callGraph.reachable ++ [j] := rfl
  have hlive : ∀ i, s.Live i → (Solver.reach s j).Live i := fun i hi =>
    hi.imp (fun h => List.mem_append_left _ h) id
  have hat {i : PointerId} (h : s.At (s.Lives setup) i) :
      (Solver.reach s j).At ((Solver.reach s j).Lives setup) i :=
    h.mono (.refl _) fun q hq => hq.mono (.refl _) hlive
  refine ⟨⟨?_, ?_, ?_, fun e he => hlive _ (hs.callees e he)⟩, hs.pending,
    fun i hi => hat (hs.touched i hi), fun a ha => hat (hs.arrivals a ha)⟩
  · rw [hlist]
    exact List.nodup_append.2 ⟨hs.nodup, List.pairwise_singleton _ _, fun a ha b hb hab =>
      hnew (List.mem_singleton.1 hb ▸ hab ▸ ha)⟩
  · intro n i hn
    rw [hlist] at hn ⊢
    by_cases hlt : n < s.callGraph.reachable.length
    · rw [List.getElem?_append_left hlt] at hn
      refine (hs.found n i hn).imp id ?_
      rintro ⟨e, he, hcallee, k, c, hk, hc, hcalls⟩
      refine ⟨e, he, hcallee, k, c, hk, ?_, hcalls⟩
      rw [List.getElem?_append_left (hk.trans hlt)]
      exact hc
    · -- this is the last one, and whatever calls it is listed
      obtain ⟨hlen, -⟩ := List.getElem?_eq_some_iff.1 hn
      rw [List.length_append, List.length_singleton] at hlen
      obtain rfl : n = s.callGraph.reachable.length := by omega
      rw [List.getElem?_concat_length, Option.some.injEq] at hn
      subst hn
      refine hwhy.imp id ?_
      rintro ⟨e, he, hcallee⟩
      obtain ⟨c, hc, hcalls⟩ := hs.callers e he
      obtain ⟨k, hk, hget⟩ := List.getElem_of_mem hc
      refine ⟨e, he, hcallee, k, c, hk, ?_, hcalls⟩
      rw [List.getElem?_append_left hk, List.getElem?_eq_getElem hk, hget]
  · intro e he
    obtain ⟨c, hc, hcalls⟩ := hs.callers e he
    exact ⟨c, List.mem_append_left _ hc, hcalls⟩

/-- A method that is reachable need not wait. -/
theorem take {pending : Deque CSMethodId} (hs : s.Tracked setup)
    (hnext : s.pending.popFront = some (j, pending)) (hj : j ∈ s.callGraph.reachable) :
    { s with pending }.Tracked setup := by
  have hqueue := Deque.toList_of_popFront hnext
  refine hs.extend { State.Grows.refl s with } rfl ?_ (fun e he => Or.inl he) ?_
    (fun i hi => Or.inl (hs.touched i hi)) fun a ha => Or.inl (hs.arrivals a ha)
  · rintro i (hi | hi)
    · exact Or.inl hi
    · rw [hqueue] at hi
      rcases List.mem_cons.1 hi with rfl | hi
      · exact Or.inl hj
      · exact Or.inr hi
  · intro i hi
    rw [hqueue]
    exact Or.inl (List.mem_cons_of_mem j hi)

theorem enter (hs : s.Tracked setup) (j : CSMethodId) : (Solver.enter s j).Tracked setup := by
  obtain ⟨hreach, hedges⟩ := callGraph_enter (s := s) (j := j)
  refine hs.extend grows_enter hreach (fun i hi => ?_) (fun e he => Or.inl ?_)
    (fun i hi => Or.inl hi) (fun i hi => Or.inl (hs.touched i hi)) fun a ha => Or.inl (hs.arrivals a ha)
  · rwa [State.Live, hreach]
  · rwa [hedges] at he

/-- An arrival is taken from one live pointer to others. -/
theorem brings {a : Arrival} (hs : s.Tracked setup) (h : Brings a s t) : t.Tracked setup := by
  refine hs.extend h.grows (by rw [h.callGraph]) (fun j hj => ?_) (fun e he => Or.inl ?_)
    (fun j hj => Or.inl ?_) (fun i hi => Or.inl ?_) fun b hb => Or.inl ?_
  · rwa [State.Live, h.callGraph, h.pending]
  · rwa [h.callGraph] at he
  · rwa [h.pending] at hj
  · rcases hi with ⟨o, ho⟩ | hflow
    · rcases h.pointsTo i o ho with ho | rfl
      · exact hs.touched i (Or.inl ⟨o, ho⟩)
      · exact hs.arrivals a h.arrival
    · rw [h.flow] at hflow
      exact hs.touched i (Or.inr hflow)
  · rcases h.arrivals b hb with hb | hb
    · exact hs.arrivals b hb
    · exact hs.touched b.pointer (Or.inr ⟨a.pointer, Or.inr hb⟩)

/-- What a live variable meets is met for its method, if no method waits. -/
theorem meets {i : PointerId} (hs : s.Tracked setup) (hlives : s.At (s.Lives setup) i)
    (hwired : s.pending.toList = []) (h : Meets setup i s t) : t.Tracked setup := by
  cases h with
  | nothing => exact hs
  | @objects c v n _ pointer method uses =>
    obtain ⟨q, hq, hlives⟩ := hlives
    obtain rfl : q = .var c v := Option.some.inj (hq.symm.trans pointer)
    obtain ⟨x, j, hx, hj, hlive⟩ := hlives
    have hreach : j ∈ s.callGraph.reachable := by
      refine hlive.resolve_right fun hwaits => ?_
      rw [hwired] at hwaits
      exact absurd hwaits List.not_mem_nil
    rw [method x hx] at hj
    exact hs.changes hreach hj uses

theorem proceeds (hs : s.Tracked setup) (h : Proceeds setup s t) : t.Tracked setup := by
  cases h with
  | idle => exact hs
  | @handled a u _ wired brings meets =>
    have hu : u.Tracked setup := hs.brings brings
    have hlives : u.At (u.Lives setup) a.pointer := by
      refine (hs.arrivals a brings.arrival).mono brings.grows.arena fun q hq => ?_
      refine hq.mono brings.grows.arena fun j hj => ?_
      rwa [State.Live, brings.callGraph, brings.pending]
    exact hu.meets hlives (brings.pending ▸ wired) meets
  | @wired j pending _ next body =>
    -- it makes no difference whether the method leaves the queue before it is listed or after
    have htaken (hnew : j ∉ s.callGraph.reachable) :
        (Solver.reach { s with pending } j).Tracked setup := by
      have hwaits : j ∈ s.pending.toList := Deque.toList_of_popFront next ▸ List.mem_cons_self
      exact (hs.reach hnew (Or.inr (hs.pending j hwaits))).take next
        (List.mem_append_right _ (List.mem_singleton.2 rfl))
    cases body with
    | again old => exact hs.take next old
    | unknown new => exact htaken new
    | wired new method body =>
      exact (htaken new).changes (List.mem_append_right _ (List.mem_singleton.2 rfl)) method body

theorem invariant (setup : Setup) : Invariant setup (·.Tracked setup) where
  interns hs ht := hs.joins ht fun _ hq => hq.elim
  enters {s t j} hs ht := by
    have hentry : j ∈ (Solver.enter s j).callGraph.entries := mem_entries_enter.2 (Or.inr rfl)
    cases ht with
    | again => exact hs.enter j
    | unknown new => exact (hs.enter j).reach new (Or.inl hentry)
    | wired new method body =>
      exact ((hs.enter j).reach new (Or.inl hentry)).changes
        (List.mem_append_right _ (List.mem_singleton.2 rfl)) method body
  proceeds hs ht := hs.proceeds ht

end State.Tracked

namespace Solver

theorem tracked_requests (hset : setup.WellFormed) (hs : s.Tracked setup) (rs : List Request) :
    Moves (fun _ t => t.Tracked setup) (rs.forM (·.perform setup)) s :=
  Ends.forM hs fun r _ _ ht => (State.Tracked.invariant setup).perform hset ht r

/-- In a session that goes on until something fails, reachable methods are listed in the order in which
they were discovered: none twice, and each is an entry, or the callee of a call in a method that stands
before it. All calls are made in reachable methods, and they lead to methods that are reachable or wait.
Only variables of such methods point to anything or have flow edges. All this holds whenever a request
has been answered, and also after the one that failed. -/
theorem discovered_in_order {p : Program} (hp : p.validate = .ok ()) (selector : Selector)
    (order : WorklistOrder) (rs : List Request) :
    (after (rs.forM (·.perform (p.setup selector))) (.initial order)).Discovered
      (p.setup selector) := by
  have hset : (p.setup selector).WellFormed := Program.wellFormed_setup hp
  have hends := tracked_requests hset (State.Tracked.initial order) rs
  exact hends.after (fun _ t ht => ht.discovered) fun _ t ⟨w, hw⟩ => hw.discovered

/-- In the small program the callee is discovered by the first step. -/
theorem discovered_in_order_sample : Sample.program.validate = .ok () ∧
    (after ([.seed [0], .step 9, .step 9].forM
      (Request.perform (Sample.program.setup (.objectSensitive 2 1)))) (.initial .fifo)).callGraph.reachable =
        [0, 1] ∧
    (after ([.seed [0], .step 9, .step 9].forM
      (Request.perform (Sample.program.setup (.objectSensitive 2 1)))) (.initial .fifo)).Discovered
        (Sample.program.setup (.objectSensitive 2 1)) :=
  ⟨Sample.validate_program, by decide +kernel,
    discovered_in_order Sample.validate_program (.objectSensitive 2 1) .fifo
      [.seed [0], .step 9, .step 9]⟩

end Solver

end PointsTo
