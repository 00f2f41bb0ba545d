import Mathlib.Data.List.Nodup
import PointsTo.Proofs.Rules

/-!
# Reachable methods

Between two things that a run does, its state is `State.Wired`: whatever is found is covered. What is
found once nothing waits any more is therefore closed under the rules. A state is also `State.Counted`:
its counter of calls without a target follows from what its variables point to.

`Extends` says that more has been found and that the new facts are covered; `Advances` is the same for
states whose queues have lost what has been found. Making a method reachable extends the state.
-/

namespace PointsTo

namespace State

variable (setup : Setup) (s : State)

/-- Whatever is found is covered. -/
def Wired : Prop := ∀ g, s.Found g → s.Covers setup g

/-- The counter of misses counts, for each object that a location points to, the calls that have no
target for it. -/
def Counted : Prop :=
  ∃ ps : List (Location × HeapObject), ps.Nodup ∧
    (∀ p, p ∈ ps ↔ s.Found (.pointsTo p.1 p.2)) ∧
    s.stats.dispatchMisses = (ps.map fun p => setup.missCount p.1 p.2).sum

end State

/-- `t` is `s` with more facts found, and what the new ones entail is known. -/
structure Extends (setup : Setup) (F : Fact → Prop) (s t : State) : Prop where
  grows : s.Grows t
  sound : t.Sound setup F
  waiting : ∀ f, s.Waiting f → t.Waiting f
  found : ∀ g, t.Found g → s.Found g ∨ t.Covers setup g
  counted : s.Counted setup → t.Counted setup

section

variable {setup : Setup} {F : Fact → Prop} {s t u : State}

theorem Extends.knows (h : Extends setup F s t) {f : Fact} (hf : s.Knows f) : t.Knows f :=
  hf.imp h.grows.found (h.waiting f)

theorem Extends.refl (hs : s.Sound setup F) : Extends setup F s s :=
  ⟨.refl s, hs, fun _ h => h, fun _ h => Or.inl h, fun h => h⟩

/-- The counter stays right if it is raised by what the new points-to facts miss. -/
theorem State.Counted.append (hs : s.Counted setup) (ps : List (Location × HeapObject))
    (hps : ps.Nodup) (hnew : ∀ p ∈ ps, ¬s.Found (.pointsTo p.1 p.2))
    (hfound : ∀ l o, t.Found (.pointsTo l o) ↔ s.Found (.pointsTo l o) ∨ (l, o) ∈ ps)
    (hmisses : t.stats.dispatchMisses =
      s.stats.dispatchMisses + (ps.map fun p => setup.missCount p.1 p.2).sum) :
    t.Counted setup := by
  obtain ⟨qs, hqs, hmem, hcount⟩ := hs
  refine ⟨qs ++ ps, ?_, ?_, ?_⟩
  · refine List.nodup_append.2 ⟨hqs, hps, ?_⟩
    rintro p hp q hq rfl
    exact hnew p hq ((hmem p).1 hp)
  · intro p
    rw [List.mem_append, hmem, hfound]
  · rw [hmisses, hcount, List.map_append, List.sum_append]

/-- A rule that misses no target extends the state. -/
theorem Evolves.extends (h : Evolves setup F 0 s t) (hs : s.Sound setup F) :
    Extends setup F s t where
  grows := h.grows
  sound := h.sound
  waiting := h.waiting
  found _ hg := h.found hs hg
  counted hc := by
    refine hc.append [] List.nodup_nil (fun p hp => absurd hp List.not_mem_nil) ?_ h.misses_eq
    intro l o
    have hnil : (l, o) ∉ ([] : List (Location × HeapObject)) := List.not_mem_nil
    constructor
    · intro hf
      exact Or.inl (h.found_pointsTo hs hf)
    · rintro (hf | hf)
      · exact h.grows.found hf
      · exact absurd hf hnil

end

/-- How the state of a run changes from one thing done to the next. -/
structure Advances (setup : Setup) (F : Fact → Prop) (s t : State) : Prop where
  grows : s.Grows t
  sound : t.Sound setup F
  knows : ∀ f, s.Knows f → t.Knows f
  wired : s.Wired setup → t.Wired setup
  counted : s.Counted setup → t.Counted setup

section

variable {setup : Setup} {F : Fact → Prop} {s s' t u : State}

theorem Advances.refl (hs : s.Sound setup F) : Advances setup F s s :=
  ⟨.refl s, hs, fun _ h => h, fun h => h, fun h => h⟩

theorem Advances.trans (h : Advances setup F s t) (h' : Advances setup F t u) :
    Advances setup F s u where
  grows := h.grows.trans h'.grows
  sound := h'.sound
  knows f hf := h'.knows f (h.knows f hf)
  wired hs := h'.wired (h.wired hs)
  counted hs := h'.counted (h.counted hs)

/-- A state advances if something is taken from its queues and the rest is extended by what has been
taken. -/
theorem Extends.advances (h : Extends setup F s' t) (ha : s'.arena = s.arena)
    (hf : s'.flow = s.flow) (hc : s'.callGraph = s.callGraph)
    (harr : s.stats.arrivals ≤ s'.stats.arrivals) (hprop : s'.stats.propagations = s.stats.propagations)
    (hmiss : s'.stats.dispatchMisses = s.stats.dispatchMisses)
    (hwait : ∀ f, s.Waiting f → s'.Waiting f ∨ t.Found f) : Advances setup F s t := by
  have hgrows : s.Grows s' := {
    arena := ha ▸ .refl s.arena
    flow := fun i => hf ▸ List.prefix_rfl
    entries := hc ▸ List.prefix_rfl
    reachable := hc ▸ List.prefix_rfl
    edges := hc ▸ List.prefix_rfl
    arrivals := harr
    propagations := Nat.le_of_eq hprop.symm
    dispatchMisses := Nat.le_of_eq hmiss.symm }
  have hback : ∀ {g}, s'.Found g → s.Found g := State.found_of_eq ha.symm hf.symm hc.symm
  have hknows : ∀ f, s.Knows f → t.Knows f := by
    rintro f (hg | hg)
    · exact Or.inl (h.grows.found (hgrows.found hg))
    · rcases hwait f hg with hg | hg
      · exact Or.inr (h.waiting f hg)
      · exact Or.inl hg
  refine ⟨hgrows.trans h.grows, h.sound, hknows, ?_, ?_⟩
  · intro hs g hg
    rcases h.found g hg with hg | hg
    · exact (hs g (hback hg)).mono hknows
    · exact hg
  · rintro ⟨ps, hps, hmem, hcount⟩
    refine h.counted ⟨ps, hps, ?_, hmiss.trans hcount⟩
    intro p
    rw [hmem]
    exact ⟨hgrows.found, hback⟩

end

namespace Solver

variable {setup : Setup} {entries : List MethodId} {F : Fact → Prop} {s : State}

/-! ## Methods -/

section

variable {j : CSMethodId} {m : MethodInstance}

/-- The state with one more reachable method. -/
def reach (s : State) (j : CSMethodId) : State :=
  { s with callGraph := s.callGraph.withReachable j }

theorem addReachable_eq (hnew : j ∉ s.callGraph.reachable) :
    { s with callGraph := s.callGraph.addReachable j } = reach s j := by
  rw [CallGraph.addReachable_eq, if_neg hnew]
  rfl

theorem grows_reach : s.Grows (reach s j) :=
  { State.Grows.refl s with reachable := List.prefix_append _ _ }

/-- A method that has become reachable is all that is found in addition. -/
theorem found_reach (hj : s.arena.method? j = some m) {f : Fact} (hf : (reach s j).Found f) :
    s.Found f ∨ f = .reachable m := by
  cases f with
  | reachable n =>
    obtain ⟨i, hi, hn⟩ := hf
    rcases List.mem_append.1 hi with hi | hi
    · exact Or.inl ⟨i, hi, hn⟩
    · rw [List.mem_singleton.1 hi] at hn
      have hnm : n = m := Option.some.inj (hn.symm.trans hj)
      exact Or.inr (by rw [hnm])
  | _ => exact Or.inl hf

theorem sound_reach (hs : s.Sound setup F) (hnew : j ∉ s.callGraph.reachable)
    (hj : s.arena.method? j = some m) (hm : F (.reachable m)) : (reach s j).Sound setup F := by
  have hw := hs.wellFormed
  refine ⟨{ hw with reachable := ?_, nodup_reachable := ?_ }, hs.heap, hs.calls, ?_, ?_⟩
  · intro i hi
    rcases List.mem_append.1 hi with hi | hi
    · exact hw.reachable i hi
    · rw [List.mem_singleton.1 hi]
      exact Arena.lt_of_method? hj
  · refine List.nodup_append.2 ⟨hw.nodup_reachable, List.nodup_singleton j, ?_⟩
    rintro a ha b hb rfl
    rw [List.mem_singleton.1 hb] at ha
    exact hnew ha
  · rintro f (hf | hf)
    · rcases found_reach hj hf with hf | rfl
      · exact hs.knows f (Or.inl hf)
      · exact hm
    · exact hs.knows f (Or.inr (State.waiting_of_eq rfl rfl rfl hf))
  · intro l l' o hl ho
    exact (hs.flows l l' o hl ho).imp grows_reach.found id

/-- Making a method reachable wires it, if it was not reachable. -/
theorem ends_addReachable (hset : setup.WellFormed) (hF : Closed setup entries F)
    (hs : s.Sound setup F) (hj : s.arena.method? j = some m) (hm : F (.reachable m)) :
    Ends (addReachable setup j) s
      (fun _ t => Extends setup F s t ∧ t.Found (.reachable m) ∧ (t = s ∨ ¬s.Found (.reachable m)))
      (Fails setup F) := by
  unfold addReachable
  refine Ends.bind_of_eq get_eq ?_
  by_cases hreach : j ∈ s.callGraph.reachable
  · rw [if_pos (by simpa [CallGraph.reaches_iff] using hreach)]
    exact show _ ∧ _ from ⟨.refl hs, ⟨j, hreach, hj⟩, Or.inl rfl⟩
  rw [if_neg (by simpa [CallGraph.reaches_iff] using hreach)]
  refine Ends.bind_of_eq modify_eq ?_
  rw [addReachable_eq hreach]
  have hs' := sound_reach hs hreach hj hm
  refine Ends.mono (acts_wireBody hset hF hs' hj hm) ?_ fun _ _ h => h
  rintro - t ⟨ht, hall⟩
  have hgrows : s.Grows t := grows_reach.trans ht.grows
  have hnot : ¬s.Found (.reachable m) := by
    rintro ⟨i, hi, him⟩
    rw [Arena.eq_of_method? him hj] at hi
    exact hreach hi
  refine ⟨⟨hgrows, ht.sound, ?_, ?_, fun hc => (ht.extends hs').counted hc⟩, ?_, Or.inr hnot⟩
  · intro f hf
    exact ht.waiting f (State.waiting_of_eq rfl rfl rfl hf)
  · intro g hg
    rcases ht.found hs' hg with hg | hg
    · rcases found_reach hj hg with hg | rfl
      · exact Or.inl hg
      · exact Or.inr hall
    · exact Or.inr hg
  · exact ht.grows.found ⟨j, List.mem_append_right _ (List.mem_singleton.2 rfl), hj⟩

end

end Solver

end PointsTo
