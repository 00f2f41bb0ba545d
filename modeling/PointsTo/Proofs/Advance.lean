import PointsTo.Proofs.Arrivals
import PointsTo.Solver.Run

/-!
# Doing one thing

Whatever `advance` does, the state advances and there is progress, unless nothing was left to do: a
method becomes reachable, a location points to more, or there is less to do.
-/

namespace PointsTo.Solver

variable {setup : Setup} {entries : List MethodId} {F : Fact → Prop} {s : State}

/-- How much is left to do. -/
def todo (s : State) : Nat := s.pending.toList.length + s.worklist.toList.length

/-- Either a method has become reachable, or a location points to more, or there is less to do. -/
def Progresses (s t : State) : Prop :=
  (∃ m, t.Found (.reachable m) ∧ ¬s.Found (.reachable m)) ∨
    (∃ l o, t.Found (.pointsTo l o) ∧ ¬s.Found (.pointsTo l o)) ∨ todo t < todo s

/-- A method is taken from the queue. -/
theorem sound_takePending (hs : s.Sound setup F) {pending : Deque CSMethodId}
    (hsub : ∀ j ∈ pending.toList, j ∈ s.pending.toList) : { s with pending }.Sound setup F := by
  have hw := hs.wellFormed
  refine ⟨{ hw with pending := fun j hj => hw.pending j (hsub j hj) }, hs.heap, hs.calls, ?_, ?_⟩
  · rintro f (hf | hf)
    · exact hs.knows f (Or.inl (State.found_of_eq rfl rfl rfl hf))
    · cases f with
      | reachable m =>
        obtain ⟨j, hj, hm⟩ := hf
        exact hs.knows _ (Or.inr ⟨j, hsub j hj, hm⟩)
      | pointsTo l o => exact hs.knows _ (Or.inr hf)
      | _ => exact hf.elim
  · exact fun l l' o hl ho => hs.flows l l' o hl ho

/-- Only the method that is taken need not wait any more. -/
theorem waiting_takePending {j : CSMethodId} {pending : Deque CSMethodId}
    (hpop : s.pending.popFront = some (j, pending)) {m : MethodInstance}
    (hj : s.arena.method? j = some m) {f : Fact} (hf : s.Waiting f) :
    { s with pending }.Waiting f ∨ f = .reachable m := by
  cases f with
  | reachable n =>
    obtain ⟨i, hi, hn⟩ := hf
    rw [Deque.toList_of_popFront hpop] at hi
    rcases List.mem_cons.1 hi with rfl | hi
    · rw [hj] at hn
      cases hn
      exact Or.inr rfl
    · exact Or.inl ⟨i, hi, hn⟩
  | pointsTo l o => exact Or.inl hf
  | _ => exact hf.elim

/-- A waiting method is wired. -/
theorem ends_advance_wired (hset : setup.WellFormed) (hF : Closed setup entries F)
    (hs : s.Sound setup F) {j : CSMethodId} {pending : Deque CSMethodId}
    (hpop : s.pending.popFront = some (j, pending)) :
    Ends (addReachable setup j) { s with pending }
      (fun _ t => Advances setup F s t ∧ Progresses s t) (Fails setup F) := by
  have hlist := Deque.toList_of_popFront hpop
  have hmem : j ∈ s.pending.toList := by
    rw [hlist]
    exact List.mem_cons_self
  have hsub : ∀ i ∈ pending.toList, i ∈ s.pending.toList := by
    intro i hi
    rw [hlist]
    exact List.mem_cons_of_mem j hi
  obtain ⟨m, hj⟩ := hs.wellFormed.arena.method j (hs.wellFormed.pending j hmem)
  have hm : F (.reachable m) := hs.knows _ (Or.inr ⟨j, hmem, hj⟩)
  have hs' := sound_takePending hs hsub
  refine Ends.mono (ends_addReachable hset hF hs' hj hm) ?_ fun _ _ h => h
  rintro - t ⟨hext, hreach, hprog⟩
  refine ⟨hext.advances rfl rfl rfl (Nat.le_refl _) rfl rfl ?_, ?_⟩
  · intro f hf
    rcases waiting_takePending hpop hj hf with hf | rfl
    · exact Or.inl hf
    · exact Or.inr hreach
  · rcases hprog with rfl | hnot
    · refine Or.inr (Or.inr ?_)
      show pending.toList.length + s.worklist.toList.length <
        s.pending.toList.length + s.worklist.toList.length
      rw [hlist, List.length_cons]
      omega
    · exact Or.inl ⟨m, hreach, hnot⟩

/-- An arrival is handled. -/
theorem ends_advance_handled (hset : setup.WellFormed) (hF : Closed setup entries F)
    (hs : s.Sound setup F) {a : Arrival} {w : Worklist} (hpop : s.worklist.pop = some (a, w)) :
    Ends (handle setup a)
      { s with worklist := w, stats := { s.stats with arrivals := s.stats.arrivals + 1 } }
      (fun _ t => Advances setup F s t ∧ Progresses s t) (Fails setup F) := by
  have hperm := Worklist.perm_of_pop hpop
  have ha : a ∈ s.worklist.toList := hperm.mem_iff.2 List.mem_cons_self
  obtain ⟨l, hl⟩ := hs.wellFormed.arena.location a.pointer (hs.wellFormed.worklist a ha).1
  refine Ends.mono (ends_handle hset hF hs hpop hl) ?_ fun _ _ h => h
  rintro - t ⟨hext, hbrought, hprog⟩
  refine ⟨hext.advances rfl rfl rfl (Nat.le_succ _) rfl rfl ?_, ?_⟩
  · intro f hf
    cases f with
    | reachable n => exact Or.inl hf
    | pointsTo m o =>
      obtain ⟨b, hb, hm, k, hk, ho⟩ := hf
      rcases List.mem_cons.1 (hperm.mem_iff.1 hb) with rfl | hb
      · rw [hl] at hm
        cases hm
        exact Or.inr (hbrought k hk o ho)
      · exact Or.inl ⟨b, hb, hm, k, hk, ho⟩
    | _ => exact hf.elim
  · rcases hprog with ⟨hpending, hworklist⟩ | ⟨o, ho, hnot⟩
    · refine Or.inr (Or.inr ?_)
      have hlen := hperm.length_eq
      rw [List.length_cons] at hlen
      rw [todo, todo, hpending, hworklist]
      omega
    · exact Or.inr (Or.inl ⟨l, o, ho, hnot⟩)

/-- Doing one thing advances the state. Either nothing waited, and nothing has changed, or there is
progress. -/
theorem ends_advance (hset : setup.WellFormed) (hF : Closed setup entries F)
    (hs : s.Sound setup F) :
    Ends (advance setup) s
      (fun done t => Advances setup F s t ∧
        (done = .idle ∧ t = s ∧ (∀ f, ¬s.Waiting f) ∨ done ≠ .idle ∧ Progresses s t))
      (Fails setup F) := by
  unfold advance
  refine Ends.bind_of_eq get_eq ?_
  cases hpop : s.pending.popFront with
  | some next =>
    refine Ends.bind_of_eq modify_eq ?_
    refine Ends.bind (ends_advance_wired hset hF hs hpop) ?_ fun _ _ h => h
    rintro - t ⟨hadv, hprog⟩
    exact Ends.of_eq rfl ⟨hadv, Or.inr ⟨nofun, hprog⟩⟩
  | none =>
    refine Ends.bind_of_eq get_eq ?_
    cases hpop' : s.worklist.pop with
    | some next =>
      refine Ends.bind_of_eq modify_eq ?_
      refine Ends.bind (ends_advance_handled hset hF hs hpop') ?_ fun _ _ h => h
      rintro - t ⟨hadv, hprog⟩
      exact Ends.of_eq rfl ⟨hadv, Or.inr ⟨nofun, hprog⟩⟩
    | none =>
      refine Ends.of_eq rfl ⟨.refl hs, Or.inl ⟨rfl, rfl, ?_⟩⟩
      have hpending := Deque.popFront_eq_none_iff.1 hpop
      have hworklist := Worklist.pop_eq_none_iff.1 hpop'
      intro f hf
      cases f with
      | reachable m =>
        obtain ⟨j, hj, -⟩ := hf
        rw [hpending] at hj
        exact absurd hj List.not_mem_nil
      | pointsTo l o =>
        obtain ⟨a, ha, -⟩ := hf
        rw [hworklist] at ha
        exact absurd ha List.not_mem_nil
      | _ => exact hf.elim

end PointsTo.Solver
