import PointsTo.Proofs.Failures
import PointsTo.Proofs.Naming

/-!
# Every object comes to every pointer once

Arrivals overlap freely with each other and with the set of their pointer. What `settle` answers for an
arrival, its `Delta`, does not: the deltas of one pointer are disjoint and add up to the pointer's set
(`Delivered`), in every session, whatever is asked for in which order and also after errors. As a
variable meets exactly the objects of its deltas (`advance_of_settle`), it meets each object once, and
the counters count what they are meant to count (`delivered_once`).
-/

namespace PointsTo.Solver

variable {setup : Setup} {order : WorklistOrder} {s t : State}

/-- What an arrival adds to the set of its pointer. -/
structure Delta where
  pointer : PointerId
  objects : PointsToSet

/-- The objects of the delta that its pointer meets, if that is one of a variable. -/
def Delta.meetings (a : Arena) (d : Delta) : List (ContextId × VarId × CSObjId) :=
  match a.pointers.get? d.pointer with
  | some (.var c v) => d.objects.toList.map (c, v, ·)
  | _ => []

/-! ## The deltas of a session -/

/-- The state when an arrival has been taken and `worklist` is left. -/
def taken (s : State) (worklist : Worklist) : State :=
  { s with worklist, stats := { s.stats with arrivals := s.stats.arrivals + 1 } }

/-- What `settle` answers next, if the next thing to do is to handle an arrival. -/
def delta? (s : State) : Option Delta :=
  match s.pending.popFront, s.worklist.pop with
  | none, some (a, worklist) =>
    match settle a (taken s worklist) with
    | .ok fresh _ => some ⟨a.pointer, fresh⟩
    | .error .. => none
  | _, _ => none

/-- The deltas of a step, of which there is one at most. -/
def stepDeltas (setup : Setup) : (fuel : Nat) → State → List Delta
  | 0, _ => []
  | n + 1, s => (delta? s).toList ++
    match advance setup s with
    | .ok .wired t => stepDeltas setup n t
    | _ => []

/-- The deltas of a run. -/
def runDeltas (setup : Setup) : (fuel : Nat) → State → List Delta
  | 0, _ => []
  | n + 1, s => (delta? s).toList ++
    match advance setup s with
    | .ok .wired t | .ok .handled t => runDeltas setup n t
    | _ => []

/-- The deltas while a request is served. -/
def Request.deltas (setup : Setup) (s : State) : Request → List Delta
  | .seed _ => []
  | .step n => stepDeltas setup n s
  | .run n => runDeltas setup n s

/-- The deltas while a session goes on, oldest first. -/
def Session.deltas (setup : Setup) : Session → List Request → List Delta
  | _, [] => []
  | session, r :: rs => r.deltas setup session.state ++ (session.ask setup r).deltas setup rs

/-- The deltas of a session from its start. -/
def deltas (setup : Setup) (order : WorklistOrder) (rs : List Request) : List Delta :=
  Session.deltas setup ⟨.initial order, []⟩ rs

theorem delta?_of_pop {a : Arrival} {w : Worklist} (h : s.pending.popFront = none)
    (hpop : s.worklist.pop = some (a, w)) :
    delta? s = some ⟨a.pointer, a.objects.diff (s.pointsTo a.pointer)⟩ := by
  rw [delta?, h, hpop]
  dsimp only
  rw [settle_ite]
  rfl

/-- A delta is what settling the next arrival answers. -/
theorem exists_settle_of_delta? {d : Delta} (hd : delta? s = some d) :
    ∃ a w t, s.pending.popFront = none ∧ s.worklist.pop = some (a, w) ∧ a.pointer = d.pointer ∧
      settle a (taken s w) = .ok d.objects t := by
  cases hpop : s.pending.popFront with
  | some next =>
    rw [delta?, hpop] at hd
    cases hd
  | none =>
    cases hpop' : s.worklist.pop with
    | none =>
      rw [delta?, hpop, hpop'] at hd
      cases hd
    | some next =>
      obtain ⟨a, w⟩ := next
      rw [delta?_of_pop hpop hpop'] at hd
      cases hd
      exact ⟨a, w, _, rfl, rfl, rfl, settle_ite (taken s w) a⟩

/-! ## What the rules leave alone -/

/-- No set has changed, and neither counter of arrivals. -/
structure Quiet (s t : State) : Prop where
  pointsTo : ∀ i, t.pointsTo i = s.pointsTo i
  arrivals : t.stats.arrivals = s.stats.arrivals
  propagations : t.stats.propagations = s.stats.propagations

theorem frame_quiet : Frame fun _ => Quiet where
  refl _ := ⟨fun _ => rfl, rfl, rfl⟩
  trans h h' := ⟨fun i => (h'.pointsTo i).trans (h.pointsTo i), h'.arrivals.trans h.arrivals,
    h'.propagations.trans h.propagations⟩
  mono _ h := h
  arena _ _ _ hsets := ⟨hsets, rfl, rfl⟩
  arrive _ _ _ := ⟨fun _ => rfl, rfl, rfl⟩
  flow _ _ _ := ⟨fun _ => rfl, rfl, rfl⟩
  call _ _ _ _ := ⟨fun _ => rfl, rfl, rfl⟩
  miss _ := ⟨fun _ => rfl, rfl, rfl⟩

theorem quiet_addReachable (j : CSMethodId) (s : State) :
    Ends (addReachable setup j) s (fun _ t => Quiet s t) fun _ t => Quiet s t :=
  (respects_addReachable frame_quiet (fun _ _ => ⟨fun _ => rfl, rfl, rfl⟩) j).ends s

theorem quiet_seed (entries : List MethodId) (s : State) :
    Quiet s (after (seed setup entries) s) :=
  respects_seed frame_quiet (fun _ _ => ⟨fun _ => rfl, rfl, rfl⟩)
    (fun _ _ => ⟨fun _ => rfl, rfl, rfl⟩) entries s

/-! ## Disjoint deltas -/

/-- The deltas that were settled before `s` was reached: those of one pointer are disjoint and add up to
its set. One is settled with each arrival that is taken, and the others than empty ones propagate. -/
structure Delivered (log : List Delta) (s : State) : Prop where
  set : ∀ i k, k ∈ s.pointsTo i ↔ ∃ d ∈ log, d.pointer = i ∧ k ∈ d.objects
  disjoint : log.Pairwise fun d e => d.pointer = e.pointer → ∀ k ∈ d.objects, k ∉ e.objects
  arrivals : s.stats.arrivals = log.length
  propagations : s.stats.propagations = (log.filter fun d => !d.objects.isEmpty).length

theorem delivered_initial : Delivered [] (.initial order) where
  set i k := by
    have hnone : k ∉ (State.initial order).pointsTo i :=
      fun hk => absurd (Arena.lt_of_mem_pointsTo hk) (Nat.not_lt_zero i)
    exact ⟨fun hk => absurd hk hnone, fun ⟨_, hd, _⟩ => absurd hd List.not_mem_nil⟩
  disjoint := .nil
  arrivals := rfl
  propagations := rfl

section

variable {log : List Delta}

theorem Delivered.quiet (h : Delivered log s) (ht : Quiet s t) : Delivered log t where
  set i k := by rw [ht.pointsTo, h.set]
  disjoint := h.disjoint
  arrivals := ht.arrivals.trans h.arrivals
  propagations := ht.propagations.trans h.propagations

/-- The set of a pointer to which new objects are spread. -/
theorem mem_pointsTo_spread {i j : PointerId} {k : CSObjId} {fresh : PointsToSet}
    (hi : i < s.arena.pointers.size) :
    k ∈ (s.spread i fresh).pointsTo j ↔ k ∈ s.pointsTo j ∨ i = j ∧ k ∈ fresh := by
  obtain ⟨w, hw, -⟩ := spread_eq s i fresh
  rw [hw]
  show k ∈ (s.arena.setPointsTo i ((s.pointsTo i).union fresh)).pointsTo j ↔ _
  rw [Arena.pointsTo_setPointsTo]
  by_cases hij : i = j
  · rw [if_pos ⟨hij, hi⟩, IdSet.mem_union, hij]
    simp
  · rw [if_neg fun hc => hij hc.1]
    simp [hij, State.pointsTo]

theorem stats_spread (i : PointerId) (fresh : PointsToSet) :
    (s.spread i fresh).stats = { s.stats with propagations := s.stats.propagations + 1 } := by
  obtain ⟨w, hw, -⟩ := spread_eq s i fresh
  rw [hw]

/-- When an arrival is settled, its delta holds what no delta of its pointer held before. -/
theorem delivered_settle (h : Delivered log s) {a : Arrival} {w : Worklist}
    (ha : a.pointer < s.arena.pointers.size) {d : Delta} (hpointer : a.pointer = d.pointer)
    (hsettle : settle a (taken s w) = .ok d.objects t) : Delivered (log ++ [d]) t := by
  obtain ⟨i, objects⟩ := d
  obtain rfl : a.pointer = i := hpointer
  rw [settle_ite] at hsettle
  obtain ⟨rfl, rfl⟩ := EStateM.Result.ok.inj hsettle
  set fresh := a.objects.diff ((taken s w).pointsTo a.pointer)
  set d : Delta := ⟨a.pointer, fresh⟩
  have hdisjoint : (log ++ [d]).Pairwise fun d e =>
      d.pointer = e.pointer → ∀ k ∈ d.objects, k ∉ e.objects := by
    refine List.pairwise_append.2 ⟨h.disjoint, List.pairwise_singleton _ _, ?_⟩
    intro e he e' he' hpointer k hk hkd
    rw [List.mem_singleton.1 he'] at hpointer hkd
    exact (IdSet.mem_diff.1 hkd).2 ((h.set _ _).2 ⟨e, he, hpointer, hk⟩)
  have hmem : ∀ i k, (∃ e ∈ log ++ [d], e.pointer = i ∧ k ∈ e.objects) ↔
      k ∈ s.pointsTo i ∨ a.pointer = i ∧ k ∈ fresh := by
    intro i k
    simp only [List.mem_append, List.mem_singleton, or_and_right, exists_or, exists_eq_left, h.set]
    rfl
  have hlen : (log ++ [d]).length = log.length + 1 := List.length_append
  by_cases hempty : fresh.isEmpty = true
  · have hfilter : (log ++ [d]).filter (fun d => !d.objects.isEmpty) =
        log.filter fun d => !d.objects.isEmpty := by
      rw [List.filter_append, List.filter_cons_of_neg (by simp [d, hempty]), List.filter_nil,
        List.append_nil]
    rw [if_pos hempty]
    refine ⟨fun i k => ?_, hdisjoint, ?_, ?_⟩
    · have hnone : ¬(a.pointer = i ∧ k ∈ fresh) := fun hk => IdSet.isEmpty_iff.1 hempty k hk.2
      rw [hmem, or_iff_left hnone]
      rfl
    · rw [hlen, ← h.arrivals]
      rfl
    · rw [hfilter, ← h.propagations]
      rfl
  · have hfilter : (log ++ [d]).filter (fun d => !d.objects.isEmpty) =
        (log.filter fun d => !d.objects.isEmpty) ++ [d] := by
      rw [List.filter_append, List.filter_cons_of_pos (by simp [d, hempty]), List.filter_nil]
    rw [if_neg hempty]
    refine ⟨fun i k => ?_, hdisjoint, ?_, ?_⟩
    · rw [hmem]
      exact mem_pointsTo_spread (s := taken s w) ha
    · rw [hlen, stats_spread, ← h.arrivals]
      rfl
    · rw [hfilter, List.length_append, ← h.propagations, stats_spread]
      rfl

theorem pointers_of_settle {a : Arrival} {fresh : PointsToSet} (h : settle a s = .ok fresh t) :
    t.arena.pointers = s.arena.pointers := by
  rw [settle_ite] at h
  obtain ⟨-, rfl⟩ := EStateM.Result.ok.inj h
  split
  · rfl
  · obtain ⟨w, hw, -⟩ := spread_eq s a.pointer (a.objects.diff (s.pointsTo a.pointer))
    rw [hw]
    rfl

variable (setup) in
/-- What follows on a delta is that its pointer meets its objects. -/
theorem advance_of_settle {a : Arrival} {w : Worklist} (hpop : s.pending.popFront = none)
    (hpop' : s.worklist.pop = some (a, w)) {d : Delta} (hpointer : a.pointer = d.pointer)
    (hsettle : settle a (taken s w) = .ok d.objects t) : advance setup s = (do
      (d.meetings s.arena).forM fun x => meetObject setup x.1 x.2.1 x.2.2
      pure Progress.handled) t := by
  have hpointers : t.arena.pointers = s.arena.pointers :=
    (pointers_of_settle hsettle).trans rfl
  have hhandle : handle setup a (taken s w) =
      (d.meetings s.arena).forM (fun x => meetObject setup x.1 x.2.1 x.2.2) t := by
    refine (bind_of_ok hsettle).trans ?_
    refine (bind_of_ok get_eq).trans ?_
    rw [hpointers, hpointer, Delta.meetings]
    generalize s.arena.pointers.get? d.pointer = p
    cases p with
    | none => rfl
    | some q =>
      cases q with
      | var c v => exact (congrFun List.forM_map t).symm
      | _ => rfl
  unfold advance
  rw [bind_of_ok get_eq, hpop]
  show ((get : SolveM State) >>= _) s = _
  rw [bind_of_ok get_eq, hpop']
  show EStateM.bind (handle setup a) _ (taken s w) = EStateM.bind _ _ t
  simp only [EStateM.bind, hhandle]

theorem delivered_advance (hset : setup.WellFormed) (hs : s.WellFormed) (h : Delivered log s) :
    Delivered (log ++ (delta? s).toList) (after (advance setup) s) := by
  cases hd : delta? s with
  | some d =>
    obtain ⟨a, w, t, hpop, hpop', hpointer, hsettle⟩ := exists_settle_of_delta? hd
    have ha := (hs.worklist a ((Worklist.perm_of_pop hpop').mem_iff.2 List.mem_cons_self)).1
    have ht : Delivered (log ++ [d]) t := delivered_settle h ha hpointer hsettle
    rw [Option.toList_some, after, advance_of_settle setup hpop hpop' hpointer hsettle]
    have hmeet : Respects (fun _ => Quiet) _
        ((d.meetings s.arena).forM fun x => meetObject setup x.1 x.2.1 x.2.2) :=
      Respects.forM frame_quiet fun x _ => respects_meetObject frame_quiet hset x.1 x.2.1 x.2.2
    have hend := hmeet.bind frame_quiet fun _ _ _ _ =>
      respects_pure (n := 0) frame_quiet Progress.handled
    exact ht.quiet (hend t)
  | none =>
    rw [Option.toList_none, List.append_nil]
    suffices hends : Ends (advance setup) s (fun _ t => Delivered log t) fun _ t => Delivered log t from
      hends.after (fun _ _ h => h) fun _ _ h => h
    unfold advance
    refine Ends.bind_of_eq get_eq ?_
    cases hpop : s.pending.popFront with
    | some next =>
      have htaken : Delivered log { s with pending := next.2 } := h.quiet ⟨fun _ => rfl, rfl, rfl⟩
      refine Ends.bind_of_eq modify_eq (Ends.bind (quiet_addReachable next.1 _) ?_ ?_)
      · exact fun _ _ ht => Ends.of_eq rfl (htaken.quiet ht)
      · exact fun _ _ ht => htaken.quiet ht
    | none =>
      refine Ends.bind_of_eq get_eq ?_
      cases hpop' : s.worklist.pop with
      | some next =>
        rw [delta?_of_pop hpop hpop'] at hd
        cases hd
      | none => exact Ends.of_eq rfl h

/-! ## Steps, runs and sessions -/

theorem sound_after_advance (hset : setup.WellFormed) (hs : s.Sound setup fun _ => True) :
    (after (advance setup) s).Sound setup fun _ => True :=
  (survives_advance hset hs).after (fun _ _ h => h.sound) fun _ _ h => h.sound

theorem delivered_step (hset : setup.WellFormed) (n : Nat) (hs : s.Sound setup fun _ => True)
    (h : Delivered log s) : Delivered (log ++ stepDeltas setup n s) (after (step setup n) s) := by
  induction n generalizing s log with
  | zero =>
    rw [stepDeltas, List.append_nil]
    exact h
  | succ n ih =>
    have hfirst := delivered_advance hset hs.wellFormed h
    have hsound := sound_after_advance hset hs
    rw [stepDeltas, ← List.append_assoc]
    cases hadv : advance setup s with
    | error e t =>
      have hstep : step setup (n + 1) s = .error e t := bind_of_error hadv
      rw [after_of_error hadv] at hfirst
      rw [after_of_error hstep, List.append_nil]
      exact hfirst
    | ok done t =>
      rw [after_of_ok hadv] at hfirst hsound
      cases done with
      | wired =>
        have hrest : after (step setup (n + 1)) s = after (step setup n) t := after_bind hadv
        rw [hrest]
        exact ih hsound hfirst
      | handled | idle =>
        have hstep : after (step setup (n + 1)) s = t := after_bind hadv
        rw [hstep, List.append_nil]
        exact hfirst

theorem delivered_run (hset : setup.WellFormed) (n : Nat) (hs : s.Sound setup fun _ => True)
    (h : Delivered log s) : Delivered (log ++ runDeltas setup n s) (after (run setup n) s) := by
  induction n generalizing s log with
  | zero =>
    rw [runDeltas, List.append_nil]
    exact h
  | succ n ih =>
    have hfirst := delivered_advance hset hs.wellFormed h
    have hsound := sound_after_advance hset hs
    rw [runDeltas, ← List.append_assoc]
    cases hadv : advance setup s with
    | error e t =>
      have hrun : run setup (n + 1) s = .error e t := bind_of_error hadv
      rw [after_of_error hadv] at hfirst
      rw [after_of_error hrun, List.append_nil]
      exact hfirst
    | ok done t =>
      rw [after_of_ok hadv] at hfirst hsound
      cases done with
      | wired | handled =>
        have hrest : after (run setup (n + 1)) s = after (run setup n) t := after_bind hadv
        rw [hrest]
        exact ih hsound hfirst
      | idle =>
        have hrun : after (run setup (n + 1)) s = t := after_bind hadv
        rw [hrun, List.append_nil]
        exact hfirst

theorem delivered_perform (hset : setup.WellFormed) (hs : s.Sound setup fun _ => True)
    (h : Delivered log s) (r : Request) :
    Delivered (log ++ r.deltas setup s) (after (r.perform setup) s) := by
  cases r with
  | seed batch =>
    rw [Request.deltas, List.append_nil]
    exact h.quiet (quiet_seed batch s)
  | step n =>
    -- the answer of the step is forgotten
    have hafter : after (Request.perform setup (.step n)) s = after (step setup n) s := by
      cases hstep : step setup n s with
      | ok handled t => exact (after_bind hstep).trans (after_of_ok hstep).symm
      | error e t => exact (after_of_error (bind_of_error hstep)).trans (after_of_error hstep).symm
    rw [hafter]
    exact delivered_step hset n hs h
  | run n => exact delivered_run hset n hs h

theorem state_ask (session : Session) (r : Request) :
    (session.ask setup r).state = after (r.perform setup) session.state := by
  cases hr : r.perform setup session.state with
  | ok a t => rw [Session.ask, hr, after_of_ok hr]
  | error e t => rw [Session.ask, hr, after_of_error hr]

theorem delivered_session (hset : setup.WellFormed) (session : Session)
    (hs : session.state.Sound setup fun _ => True) (h : Delivered log session.state)
    (rs : List Request) : Delivered (log ++ session.deltas setup rs)
      (rs.foldl (Session.ask setup) session).state := by
  induction rs generalizing session log with
  | nil =>
    rw [Session.deltas, List.append_nil]
    exact h
  | cons r rs ih =>
    have hsound := (survives_perform hset hs r).after (fun _ _ h => h.sound) fun _ _ h => h.sound
    have hfirst := delivered_perform hset hs h r
    rw [← state_ask] at hsound hfirst
    rw [Session.deltas, ← List.append_assoc, List.foldl_cons]
    exact ih (session.ask setup r) hsound hfirst

theorem delivered_serve (hset : setup.WellFormed) (order : WorklistOrder) (rs : List Request) :
    Delivered (deltas setup order rs) (serve setup order rs).state := by
  have h := delivered_session hset ⟨.initial order, []⟩ (sound_initial (closed_true []))
    delivered_initial rs
  rwa [List.nil_append] at h

end

/-! ## What the counters count -/

namespace Delta

theorem mem_meetings {a : Arena} {d : Delta} {c : ContextId} {v : VarId} {o : CSObjId} :
    (c, v, o) ∈ d.meetings a ↔ a.pointers.get? d.pointer = some (.var c v) ∧ o ∈ d.objects := by
  unfold meetings
  split
  · rename_i c' v' hp
    simp only [hp, List.mem_map, Prod.mk.injEq, Option.some.injEq, Pointer.var.injEq]
    constructor
    · rintro ⟨o, ho, rfl, rfl, rfl⟩
      exact ⟨⟨rfl, rfl⟩, ho⟩
    · rintro ⟨⟨rfl, rfl⟩, ho⟩
      exact ⟨o, ho, rfl, rfl, rfl⟩
  · rename_i hp
    exact ⟨fun h => absurd h List.not_mem_nil, fun h => absurd h.1 (hp c v)⟩

theorem nodup_meetings (a : Arena) (d : Delta) : (d.meetings a).Nodup := by
  unfold meetings
  split
  · refine List.Nodup.map (fun _ _ h => (Prod.mk.inj (Prod.mk.inj h).2).2) ?_
    exact d.objects.sorted.imp Nat.ne_of_lt
  · exact List.nodup_nil

end Delta

section

variable {log : List Delta}

/-- A variable meets each object that it points to in one delta only. -/
theorem Delivered.meetings (h : Delivered log s) :
    (log.flatMap (·.meetings s.arena)).Nodup ∧ ∀ c v o,
      (c, v, o) ∈ log.flatMap (·.meetings s.arena) ↔ o ∈ s.arena.pointsToOf (.var c v) := by
  constructor
  · rw [List.nodup_flatMap]
    refine ⟨fun d _ => d.nodup_meetings s.arena, h.disjoint.imp fun {d e} hde => ?_⟩
    rintro ⟨c, v, o⟩ hd he
    obtain ⟨hdp, hdo⟩ := Delta.mem_meetings.1 hd
    obtain ⟨hep, heo⟩ := Delta.mem_meetings.1 he
    exact hde (Interner.eq_of_get? hdp hep) o hdo heo
  · intro c v o
    rw [List.mem_flatMap, Arena.mem_pointsToOf]
    constructor
    · rintro ⟨d, hd, hmem⟩
      obtain ⟨hp, ho⟩ := Delta.mem_meetings.1 hmem
      exact ⟨d.pointer, hp, (h.set _ _).2 ⟨d, hd, rfl, ho⟩⟩
    · rintro ⟨i, hp, ho⟩
      obtain ⟨d, hd, rfl, hod⟩ := (h.set _ _).1 ho
      exact ⟨d, hd, Delta.mem_meetings.2 ⟨hp, hod⟩⟩

/-- The pairs of a pointer and an object in its set. -/
def pointsToPairs (s : State) : List (PointerId × CSObjId) :=
  (List.range s.arena.pointers.size).flatMap fun i => (s.pointsTo i).toList.map (i, ·)

theorem mem_pointsToPairs {i : PointerId} {k : CSObjId} :
    (i, k) ∈ pointsToPairs s ↔ k ∈ s.pointsTo i := by
  simp only [pointsToPairs, List.mem_flatMap, List.mem_range, List.mem_map, Prod.mk.injEq]
  constructor
  · rintro ⟨j, -, l, hl, rfl, rfl⟩
    exact hl
  · intro hk
    exact ⟨i, Arena.lt_of_mem_pointsTo hk, k, hk, rfl, rfl⟩

/-- The pairs that the delta adds. -/
def Delta.pairs (d : Delta) : List (PointerId × CSObjId) := d.objects.toList.map (d.pointer, ·)

/-- A delta that is not empty adds a pair at least. -/
theorem length_filter_le_pairs (log : List Delta) :
    (log.filter fun d => !d.objects.isEmpty).length ≤ (log.flatMap Delta.pairs).length := by
  induction log with
  | nil => exact Nat.le_refl _
  | cons d log ih =>
    rw [List.flatMap_cons, List.length_append, Delta.pairs, List.length_map]
    by_cases hempty : d.objects.isEmpty = true
    · rw [List.filter_cons_of_neg (by simp [hempty])]
      exact ih.trans (Nat.le_add_left _ _)
    · have hpos : 0 < d.objects.toList.length :=
        List.length_pos_iff.2 fun hnil => hempty (List.isEmpty_iff.2 hnil)
      rw [List.filter_cons_of_pos (by simp [hempty]), List.length_cons]
      omega

theorem Delivered.nodup_pairs (h : Delivered log s) : (log.flatMap Delta.pairs).Nodup := by
  rw [List.nodup_flatMap]
  refine ⟨fun d _ => ?_, h.disjoint.imp fun {d e} hde => ?_⟩
  · exact List.Nodup.map (fun _ _ h => (Prod.mk.inj h).2) (d.objects.sorted.imp Nat.ne_of_lt)
  · intro x hd he
    obtain ⟨k, hk, rfl⟩ := List.mem_map.1 hd
    obtain ⟨k', hk', heq⟩ := List.mem_map.1 he
    obtain ⟨hpointer, rfl⟩ := Prod.mk.inj heq
    exact hde hpointer.symm k' hk hk'

/-- Each delta that is not empty takes up pairs of its own. -/
theorem Delivered.propagations_le (h : Delivered log s) :
    s.stats.propagations ≤ (pointsToPairs s).length := by
  have hsub : log.flatMap Delta.pairs ⊆ pointsToPairs s := by
    intro x hx
    obtain ⟨d, hd, hx⟩ := List.mem_flatMap.1 hx
    obtain ⟨k, hk, rfl⟩ := List.mem_map.1 hx
    exact mem_pointsToPairs.2 ((h.set _ _).2 ⟨d, hd, rfl, hk⟩)
  calc s.stats.propagations = (log.filter fun d => !d.objects.isEmpty).length := h.propagations
    _ ≤ (log.flatMap Delta.pairs).length := length_filter_le_pairs log
    _ ≤ (pointsToPairs s).length := (List.subperm_of_subset h.nodup_pairs hsub).length_le

end

/-! ## Missed calls -/

/-- The call at `site` is one on the variable `v` and has no target for the object `o`. -/
def Misses (setup : Setup) (v : VarId) (o : HeapObject) (site : Site) : Prop :=
  ∃ d a, setup.program.stmt? site = some (.call d) ∧ d.isStatic = false ∧ d.receiver = some v ∧
    setup.heap.object? o.object = some a ∧ setup.program.resolve? a.ty d = none

/-- The calls without a target because the location points to the object. -/
def missedAt (setup : Setup) (p : Location × HeapObject) :
    List (Context × VarId × HeapObject × Site) :=
  match p.1 with
  | .var c v => ((setup.program.uses v).calls.filter (setup.missesAt p.2 · = 1)).map (c, v, p.2, ·)
  | _ => []

theorem missesAt_eq_one_iff {o : HeapObject} {site : Site} : setup.missesAt o site = 1 ↔
    ∃ d a, setup.program.stmt? site = some (.call d) ∧ setup.heap.object? o.object = some a ∧
      setup.program.resolve? a.ty d = none := by
  unfold Setup.missesAt
  split
  · rename_i d a hd ha
    rw [hd, ha]
    cases hres : setup.program.resolve? a.ty d <;> simp [hres]
  · rename_i hnot
    simp only [Nat.zero_ne_one, false_iff]
    rintro ⟨d, a, hd, ha, -⟩
    exact hnot d a hd ha

theorem missesAt_le_one (o : HeapObject) (site : Site) : setup.missesAt o site ≤ 1 := by
  unfold Setup.missesAt
  split
  · split <;> decide
  · decide

/-- A sum of zeros and ones counts the ones. -/
theorem sum_map_eq_length_filter {α : Type} (f : α → Nat) (hf : ∀ x, f x ≤ 1) (xs : List α) :
    (xs.map f).sum = (xs.filter (f · = 1)).length := by
  induction xs with
  | nil => rfl
  | cons x xs ih =>
    have hx := hf x
    rw [List.map_cons, List.sum_cons, ih]
    by_cases hone : f x = 1
    · rw [List.filter_cons_of_pos (by simpa using hone), List.length_cons]
      omega
    · rw [List.filter_cons_of_neg (by simpa using hone)]
      omega

theorem length_missedAt (p : Location × HeapObject) :
    (missedAt setup p).length = setup.missCount p.1 p.2 := by
  obtain ⟨l, o⟩ := p
  cases l with
  | var c v =>
    rw [missedAt, List.length_map, Setup.missCount, sum_map_eq_length_filter _ (missesAt_le_one o)]
  | _ => rfl

theorem mem_missedAt (hset : setup.WellFormed) {p : Location × HeapObject} {c : Context} {v : VarId}
    {o : HeapObject} {site : Site} :
    (c, v, o, site) ∈ missedAt setup p ↔ p = (.var c v, o) ∧ Misses setup v o site := by
  obtain ⟨l, o'⟩ := p
  have hmisses (w : VarId) (o : HeapObject) (site : Site) :
      site ∈ (setup.program.uses w).calls ∧ setup.missesAt o site = 1 ↔ Misses setup w o site := by
    rw [hset.mem_calls, missesAt_eq_one_iff]
    constructor
    · rintro ⟨⟨d, hd, hstatic, hrecv⟩, d', a, hd', ha, hres⟩
      rw [hd] at hd'
      cases hd'
      exact ⟨d, a, hd, hstatic, hrecv, ha, hres⟩
    · rintro ⟨d, a, hd, hstatic, hrecv, ha, hres⟩
      exact ⟨⟨d, hd, hstatic, hrecv⟩, d, a, hd, ha, hres⟩
  cases l with
  | var c' v' =>
    simp only [missedAt, List.mem_map, List.mem_filter, decide_eq_true_eq, hmisses, Prod.mk.injEq,
      Location.var.injEq]
    constructor
    · rintro ⟨x, hx, rfl, rfl, rfl, rfl⟩
      exact ⟨⟨⟨rfl, rfl⟩, rfl⟩, hx⟩
    · rintro ⟨⟨⟨rfl, rfl⟩, rfl⟩, hx⟩
      exact ⟨site, hx, rfl, rfl, rfl, rfl⟩
  | _ => simp [missedAt]

theorem nodup_missedAt (hset : setup.WellFormed) (p : Location × HeapObject) :
    (missedAt setup p).Nodup := by
  have hcalls : ∀ v, (setup.program.uses v).calls.Nodup := by
    intro v
    rw [hset.uses_eq]
    split
    · simp only [Program.usesOf]
      exact Program.nodup_sitesWhere hset.valid _
    · exact List.nodup_nil
  unfold missedAt
  split
  · refine List.Nodup.map (fun _ _ h => ?_) ((hcalls _).filter _)
    exact (Prod.mk.inj (Prod.mk.inj (Prod.mk.inj h).2).2).2
  · exact List.nodup_nil

/-- The counter of misses is the number of calls, each under its context and with its receiver, that
have no target. -/
theorem exists_missed (hset : setup.WellFormed) (hs : s.Counted setup) :
    ∃ xs : List (Context × VarId × HeapObject × Site), xs.Nodup ∧
      (∀ c v o site, (c, v, o, site) ∈ xs ↔
        s.Found (.pointsTo (.var c v) o) ∧ Misses setup v o site) ∧
      s.stats.dispatchMisses = xs.length := by
  obtain ⟨ps, hps, hmem, hcount⟩ := hs
  refine ⟨ps.flatMap (missedAt setup), ?_, ?_, ?_⟩
  · rw [List.nodup_flatMap]
    refine ⟨fun p _ => nodup_missedAt hset p, hps.imp fun {p q} hpq => ?_⟩
    rintro ⟨c, v, o, site⟩ hp hq
    exact hpq (((mem_missedAt hset).1 hp).1.trans ((mem_missedAt hset).1 hq).1.symm)
  · intro c v o site
    rw [List.mem_flatMap, ← hmem (.var c v, o)]
    constructor
    · rintro ⟨p, hp, hx⟩
      obtain ⟨rfl, hmiss⟩ := (mem_missedAt hset).1 hx
      exact ⟨hp, hmiss⟩
    · rintro ⟨hp, hmiss⟩
      exact ⟨_, hp, (mem_missedAt hset).2 ⟨rfl, hmiss⟩⟩
  · rw [hcount, List.length_flatMap]
    exact congrArg List.sum (List.map_congr_left fun p _ => (length_missedAt p).symm)

/-- In every session the deltas of one pointer are disjoint and add up to its set. What is done about a
delta is that its pointer, if it is one of a variable, meets the objects of the delta. So each variable
meets each object once, each arrival that is taken counts as one, and no more of them propagate than
there are pairs of a pointer and an object. As long as no error has been reported, the counter of misses
counts each call without a target once for each context and receiver. -/
theorem delivered_once {p : Program} (hp : p.validate = .ok ()) (selector : Selector)
    (order : WorklistOrder) (rs : List Request) (log : List Delta) (session : Session)
    (hlog : log = deltas (p.setup selector) order rs)
    (hsession : session = serve (p.setup selector) order rs) :
    (log.Pairwise fun d e => d.pointer = e.pointer → ∀ k ∈ d.objects, k ∉ e.objects) ∧
    (∀ i k, k ∈ session.state.pointsTo i ↔ ∃ d ∈ log, d.pointer = i ∧ k ∈ d.objects) ∧
    (∀ s d, delta? s = some d → ∃ a w t, s.worklist.pop = some (a, w) ∧ a.pointer = d.pointer ∧
      settle a (taken s w) = .ok d.objects t ∧ advance (p.setup selector) s = (do
        (d.meetings s.arena).forM fun x => meetObject (p.setup selector) x.1 x.2.1 x.2.2
        pure Progress.handled) t) ∧
    ((log.flatMap (·.meetings session.state.arena)).Nodup ∧ ∀ c v o,
      (c, v, o) ∈ log.flatMap (·.meetings session.state.arena) ↔
        o ∈ session.state.arena.pointsToOf (.var c v)) ∧
    session.state.stats.arrivals = log.length ∧
    session.state.stats.propagations ≤ (pointsToPairs session.state).length ∧
    (session.errors = [] → ∃ xs : List (Context × VarId × HeapObject × Site), xs.Nodup ∧
      (∀ c v o site, (c, v, o, site) ∈ xs ↔
        session.state.Found (.pointsTo (.var c v) o) ∧ Misses (p.setup selector) v o site) ∧
      session.state.stats.dispatchMisses = xs.length) := by
  have hset : (p.setup selector).WellFormed := Program.wellFormed_setup hp
  subst hlog hsession
  have h := delivered_serve hset order rs
  refine ⟨h.disjoint, h.set, ?_, h.meetings, h.arrivals, h.propagations_le, ?_⟩
  · intro s d hd
    obtain ⟨a, w, t, hpop, hpop', hpointer, hsettle⟩ := exists_settle_of_delta? hd
    exact ⟨a, w, t, hpop', hpointer, hsettle, advance_of_settle _ hpop hpop' hpointer hsettle⟩
  · intro hok
    exact exists_missed hset (resumable_serve hset rs hok).1.counted

/-- In the small program an entry is added when one arrival has been handled. -/
theorem delivered_once_interleaved :
    (serve (Sample.program.setup .insensitive) .fifo Sample.interleaved).errors = [] ∧
    ((deltas (Sample.program.setup .insensitive) .fifo Sample.interleaved).flatMap (·.meetings
      (serve (Sample.program.setup .insensitive) .fifo Sample.interleaved).state.arena)).Nodup ∧
    ∃ xs : List (Context × VarId × HeapObject × Site), xs.Nodup ∧
      (serve (Sample.program.setup .insensitive) .fifo
        Sample.interleaved).state.stats.dispatchMisses = xs.length := by
  have hok : (serve (Sample.program.setup .insensitive) .fifo Sample.interleaved).errors = [] := by
    decide +kernel
  obtain ⟨-, -, -, ⟨hnodup, -⟩, -, -, hmisses⟩ := delivered_once Sample.validate_program .insensitive
    .fifo Sample.interleaved _ _ rfl rfl
  obtain ⟨xs, hxs, -, hcount⟩ := hmisses hok
  exact ⟨hok, hnodup, xs, hxs, hcount⟩

end PointsTo.Solver
