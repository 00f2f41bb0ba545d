import PointsTo.Proofs.Changes
import PointsTo.Proofs.Growth

/-!
# Invariants of steps

To go on, a solver makes a method reachable (`Reaches`) or lets a pointer meet what is new to it
(`Brings`, `Meets`), and what is changed by that is made of the changes of the rules. `Proceeds` says so
of one thing done. So an invariant has three things to survive: that something is interned, that an entry
is made reachable, and that the solver proceeds (`Invariant`). If it does, it holds after every request,
and after one that fails it holds but for the worklist (`Invariant.perform`).
-/

namespace PointsTo.Solver

variable {setup : Setup} {s t : State} {m : CSMethod}

/-- What is changed when the method `j` is made reachable. An id that was never handed out is listed as
well, but there is no body to wire. -/
inductive Reaches (setup : Setup) (j : CSMethodId) (s : State) : State → Prop where
  | again (old : j ∈ s.callGraph.reachable) : Reaches setup j s s
  | unknown (new : j ∉ s.callGraph.reachable) : Reaches setup j s (reach s j)
  | wired {m : CSMethod} {t : State} (new : j ∉ s.callGraph.reachable)
      (method : s.arena.methods.get? j = some m) (body : Changes setup m (reach s j) t) :
      Reaches setup j s t

/-- What is changed when the arrival `a` is taken from the worklist and settled. -/
structure Brings (a : Arrival) (s t : State) : Prop where
  arrival : a ∈ s.worklist.toList
  grows : s.Grows t
  callGraph : t.callGraph = s.callGraph
  pending : t.pending = s.pending
  flow : t.flow = s.flow
  pointsTo : ∀ i o, o ∈ t.pointsTo i → o ∈ s.pointsTo i ∨ i = a.pointer
  arrivals : ∀ b ∈ t.worklist.toList, b ∈ s.worklist.toList ∨ b.pointer ∈ s.flow.successors a.pointer

/-- What is changed when the pointer `i` meets objects: nothing, unless it is a variable. -/
inductive Meets (setup : Setup) (i : PointerId) (s : State) : State → Prop where
  | nothing : Meets setup i s s
  | objects {c : ContextId} {v : VarId} {n : MethodId} {t : State}
      (pointer : s.arena.pointers.get? i = some (.var c v))
      (method : ∀ x, setup.program.var? v = some x → x.method = n) (uses : Changes setup ⟨c, n⟩ s t) :
      Meets setup i s t

/-- What is changed by doing one thing. -/
inductive Proceeds (setup : Setup) (s : State) : State → Prop where
  | wired {j : CSMethodId} {pending : Deque CSMethodId} {t : State}
      (next : s.pending.popFront = some (j, pending)) (body : Reaches setup j { s with pending } t) :
      Proceeds setup s t
  | handled {a : Arrival} {u t : State} (wired : s.pending.toList = []) (brings : Brings a s u)
      (meets : Meets setup a.pointer u t) : Proceeds setup s t
  | idle : Proceeds setup s s

theorem brings_of_settle {a : Arrival} {w : Worklist} (hpop : s.worklist.pop = some (a, w))
    {fresh : PointsToSet} (h : settle a (taken s w) = .ok fresh t) : Brings a s t := by
  have hperm := Worklist.perm_of_pop hpop
  have harrival : a ∈ s.worklist.toList := hperm.mem_iff.2 List.mem_cons_self
  have hleft : ∀ b ∈ w.toList, b ∈ s.worklist.toList := fun b hb =>
    hperm.mem_iff.2 (List.mem_cons_of_mem a hb)
  have htaken : s.Grows (taken s w) := { State.Grows.refl s with arrivals := Nat.le_succ _ }
  rw [settle_ite] at h
  obtain ⟨-, rfl⟩ := EStateM.Result.ok.inj h
  split
  · exact ⟨harrival, htaken, rfl, rfl, rfl, fun _ _ ho => Or.inl ho, fun b hb => Or.inl (hleft b hb)⟩
  · generalize a.objects.diff ((taken s w).pointsTo a.pointer) = fresh
    have hgrows := htaken.trans (grows_spread (taken s w) a.pointer fresh)
    obtain ⟨w', hspread, hw'⟩ := spread_eq (taken s w) a.pointer fresh
    rw [hspread] at hgrows ⊢
    refine ⟨harrival, hgrows, rfl, rfl, rfl, fun i o ho => ?_, fun b hb => ?_⟩
    · have ho : o ∈ (s.arena.setPointsTo a.pointer ((s.pointsTo a.pointer).union fresh)).pointsTo i := ho
      rw [Arena.pointsTo_setPointsTo] at ho
      split at ho
      · rename_i hi
        exact Or.inr hi.1.symm
      · exact Or.inl ho
    · have hb : b ∈ w'.toList := hb
      rw [hw', List.mem_append, List.mem_map] at hb
      rcases hb with hb | ⟨i, hi, rfl⟩
      · exact Or.inl (hleft b hb)
      · exact Or.inr hi

section

variable (hset : setup.WellFormed)

include hset

theorem moves_addReachable (j : CSMethodId) : Moves (Reaches setup j) (addReachable setup j) s := by
  by_cases hold : j ∈ s.callGraph.reachable
  · exact Ends.of_eq (addReachable_of_mem hold) (.again hold)
  rw [Moves, Ends, addReachable_of_not_mem hold]
  cases hj : s.arena.methods.get? j with
  | none =>
    have hlookup : methodOf j (reach s j) = .error .unknownId (reach s j) := by
      show known (s.arena.methods.get? j) (reach s j) = _
      rw [hj]
      rfl
    have herror : wireBody setup j (reach s j) = .error .unknownId (reach s j) :=
      bind_of_error hlookup
    rw [herror]
    exact ⟨s.worklist, .unknown hold⟩
  | some m =>
    have hbody : Moves (Changes setup m) (wireBody setup j) (reach s j) := moves_wireBody hset hj
    refine Ends.mono hbody (fun _ t ht => .wired hold hj ht) ?_
    rintro e t ⟨w, hw⟩
    exact ⟨w, .wired hold hj hw⟩

theorem moves_meetAll (i : PointerId) (xs : List CSObjId) :
    Moves (Meets setup i) (meetAll setup i xs) s := by
  refine Ends.bind_of_eq get_eq ?_
  cases hi : s.arena.pointers.get? i with
  | none => exact Ends.of_eq rfl .nothing
  | some q =>
    cases q with
    | var c v =>
      obtain ⟨n, hn⟩ := exists_methodOfVar setup v
      have hmeet : Moves (Changes setup ⟨c, n⟩) (xs.forM fun o => meetObject setup c v o) s :=
        Moves.forM fun o _ t => moves_meetObject hset hn o
      refine Ends.mono hmeet (fun _ t ht => .objects hi hn ht) ?_
      rintro e t ⟨w, hw⟩
      exact ⟨w, .objects hi hn hw⟩
    | instanceField | staticField | arraySlots => exact Ends.of_eq rfl .nothing

theorem moves_advance : Moves (Proceeds setup) (advance setup) s := by
  unfold advance
  refine Ends.bind_of_eq get_eq ?_
  cases hpop : s.pending.popFront with
  | some next =>
    obtain ⟨j, pending⟩ := next
    refine Ends.bind_of_eq modify_eq ?_
    refine Ends.bind (moves_addReachable hset j) (fun _ t ht => Ends.of_eq rfl (.wired hpop ht)) ?_
    rintro e t ⟨w, hw⟩
    exact ⟨w, .wired hpop hw⟩
  | none =>
    refine Ends.bind_of_eq get_eq ?_
    cases hpop' : s.worklist.pop with
    | some next =>
      obtain ⟨a, w⟩ := next
      have hwired := Deque.popFront_eq_none_iff.1 hpop
      have hsettle := settle_ite (taken s w) a
      have hhandle : handle setup a (taken s w) = meetAll setup a.pointer _ _ := bind_of_ok hsettle
      have hhandled : Ends (handle setup a) (taken s w) (fun _ t => Proceeds setup s t)
          fun _ t => ∃ w, Proceeds setup s { t with worklist := w } := by
        rw [Ends, hhandle]
        refine Ends.mono (moves_meetAll hset a.pointer _)
          (fun _ t ht => .handled hwired (brings_of_settle hpop' hsettle) ht) ?_
        rintro e t ⟨w', hw'⟩
        exact ⟨w', .handled hwired (brings_of_settle hpop' hsettle) hw'⟩
      exact Ends.bind_of_eq modify_eq
        (hhandled.bind (fun _ t ht => Ends.of_eq rfl ht) fun _ _ h => h)
    | none => exact Ends.of_eq rfl .idle

end

/-! ## Invariants -/

/-- A property of states that everything a session does preserves. -/
structure Invariant (setup : Setup) (I : State → Prop) : Prop where
  interns : ∀ {s t : State}, I s → Joins (fun _ => False) s t → I t
  /-- An entry is listed and made reachable. -/
  enters : ∀ {s t : State} {j : CSMethodId}, I s → Reaches setup j (enter s j) t → I t
  proceeds : ∀ {s t : State}, I s → Proceeds setup s t → I t

namespace Invariant

variable {I : State → Prop} (hI : Invariant setup I) (hset : setup.WellFormed)

include hI hset

theorem seedEntry (hs : I s) (k : ContextId) (n : MethodId) :
    Moves (fun _ t => I t) (Solver.seedEntry setup k n) s := by
  obtain ⟨j, t, ht, hst, -⟩ := exists_method (P := fun _ => False) ⟨k, n⟩ s
  refine Ends.bind_of_eq ht (Ends.bind_of_eq modify_eq ?_)
  refine Ends.mono (moves_addReachable hset j) (fun _ u hu => hI.enters (hI.interns hs hst) hu) ?_
  rintro e u ⟨w, hw⟩
  exact ⟨w, hI.enters (hI.interns hs hst) hw⟩

theorem seed (hs : I s) (entries : List MethodId) :
    Moves (fun _ t => I t) (Solver.seed setup entries) s := by
  unfold Solver.seed
  split
  · exact ⟨s.worklist, hs⟩
  · obtain ⟨k, t, ht, hst⟩ := exists_context (P := fun _ => False) setup.selector.entryContext s
    exact Ends.bind_of_eq ht (Ends.forM (hI.interns hs hst) fun n _ u hu => hI.seedEntry hset hu k n)

theorem step (hs : I s) (n : Nat) : Moves (fun _ t => I t) (Solver.step setup n) s := by
  induction n generalizing s with
  | zero => exact ⟨s.worklist, hs⟩
  | succ n ih =>
    refine Ends.bind (moves_advance hset) ?_ ?_
    · intro done t ht
      cases done with
      | wired => exact ih (hI.proceeds hs ht)
      | handled | idle => exact Ends.of_eq rfl (hI.proceeds hs ht)
    · rintro e t ⟨w, hw⟩
      exact ⟨w, hI.proceeds hs hw⟩

theorem run (hs : I s) (n : Nat) : Moves (fun _ t => I t) (Solver.run setup n) s := by
  induction n generalizing s with
  | zero => exact ⟨s.worklist, hs⟩
  | succ n ih =>
    refine Ends.bind (moves_advance hset) ?_ ?_
    · intro done t ht
      cases done with
      | wired | handled => exact ih (hI.proceeds hs ht)
      | idle => exact Ends.of_eq rfl (hI.proceeds hs ht)
    · rintro e t ⟨w, hw⟩
      exact ⟨w, hI.proceeds hs hw⟩

/-- What a request leaves behind has the property, or would have it with another worklist if the request
failed. -/
theorem perform (hs : I s) (r : Request) : Moves (fun _ t => I t) (r.perform setup) s := by
  cases r with
  | seed batch => exact hI.seed hset hs batch
  | step n => exact Ends.bind (hI.step hset hs n) (fun _ t ht => Ends.of_eq rfl ht) fun _ _ h => h
  | run n => exact hI.run hset hs n

end Invariant

end PointsTo.Solver
