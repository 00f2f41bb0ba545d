import PointsTo.Proofs.Reachability

/-!
# Arrivals

An arrival is handled in two steps. It is settled: what it brings is added to the set of its pointer and
passed on to the pointer's successors (`Settles`). Then a variable meets the objects that are new to it.
Together the steps extend the state that the arrival was taken from (`ends_handle`).
-/

namespace PointsTo.Solver

variable {setup : Setup} {entries : List MethodId} {F : Fact → Prop} {s : State}

/-! ## Settling an arrival -/

/-- After the arrival `a` has been settled in `s`, `x` is the points-to set of its pointer, and the
worklist, which was `w` without the arrival, is `w'`: what was new waits at the pointer's successors. -/
structure Settles (s : State) (a : Arrival) (w : Worklist) (x : PointsToSet) (w' : Worklist) :
    Prop where
  set : ∀ k, k ∈ x ↔ k ∈ s.pointsTo a.pointer ∨ k ∈ a.objects
  kept : ∀ b ∈ w.toList, b ∈ w'.toList
  added : ∀ b ∈ w'.toList, b ∈ w.toList ∨
    b.pointer ∈ s.flow.successors a.pointer ∧ ∀ k ∈ b.objects, k ∈ a.objects
  passedOn : ∀ q ∈ s.flow.successors a.pointer, ∀ k ∈ a.objects, k ∉ s.pointsTo a.pointer →
    ∃ b ∈ w'.toList, b.pointer = q ∧ k ∈ b.objects

/-- The state with another points-to set of a pointer, another worklist and other counters. -/
def settled (s : State) (i : PointerId) (x : PointsToSet) (w : Worklist) (stats : SolverStats) :
    State :=
  { s with arena := s.arena.setPointsTo i x, worklist := w, stats }

/-- Arrivals at several pointers are added to the worklist one by one. -/
theorem foldl_arrive (objects : PointsToSet) (qs : List PointerId) (s : State) :
    ∃ w : Worklist, qs.foldl (fun t q => t.arrive q objects) s = { s with worklist := w } ∧
      w.toList = s.worklist.toList ++ qs.map (⟨·, objects⟩) := by
  induction qs generalizing s with
  | nil => exact ⟨s.worklist, rfl, by simp⟩
  | cons q qs ih =>
    obtain ⟨w, hw, hlist⟩ := ih (s.arrive q objects)
    refine ⟨w, hw, ?_⟩
    have hpush : (s.arrive q objects).worklist.toList = s.worklist.toList ++ [⟨q, objects⟩] :=
      Worklist.toList_push
    rw [hlist, hpush, List.append_assoc, List.map_cons, List.singleton_append]

/-- New objects are added to the set of a pointer and arrive at its successors. -/
theorem spread_eq (s : State) (i : PointerId) (fresh : PointsToSet) :
    ∃ w : Worklist, s.spread i fresh = { s with
        arena := s.arena.setPointsTo i ((s.pointsTo i).union fresh)
        worklist := w
        stats := { s.stats with propagations := s.stats.propagations + 1 } } ∧
      w.toList = s.worklist.toList ++ (s.flow.successors i).map (⟨·, fresh⟩) :=
  foldl_arrive fresh (s.flow.successors i) { s with
    arena := s.arena.setPointsTo i ((s.pointsTo i).union fresh)
    stats := { s.stats with propagations := s.stats.propagations + 1 } }

section

variable {a : Arrival} {w w' : Worklist} {stats stats' : SolverStats}

/-- Settling an arrival changes something only if it brings something new. -/
theorem settle_ite (s : State) (a : Arrival) :
    settle a s = .ok (a.objects.diff (s.pointsTo a.pointer))
      (if (a.objects.diff (s.pointsTo a.pointer)).isEmpty then s
        else s.spread a.pointer (a.objects.diff (s.pointsTo a.pointer))) := by
  set fresh := a.objects.diff (s.pointsTo a.pointer)
  show (if fresh.isEmpty then pure fresh else do
    modify (·.spread a.pointer fresh)
    pure fresh : SolveM PointsToSet) s = _
  by_cases h : fresh.isEmpty = true
  · rw [if_pos h, if_pos h]
    rfl
  · rw [if_neg h, if_neg h]
    rfl

/-- An arrival that has been taken from the worklist is settled. -/
theorem settle_eq (s : State) (a : Arrival) (w : Worklist) (stats : SolverStats) :
    ∃ x w' stats', settle a { s with worklist := w, stats } =
        .ok (a.objects.diff (s.pointsTo a.pointer)) (settled s a.pointer x w' stats') ∧
      Settles s a w x w' ∧ ((a.objects.diff (s.pointsTo a.pointer)).isEmpty = true → w' = w) ∧
      stats'.dispatchMisses = stats.dispatchMisses ∧ stats.arrivals ≤ stats'.arrivals ∧
      stats.propagations ≤ stats'.propagations := by
  set fresh := a.objects.diff (s.pointsTo a.pointer) with hfresh
  have hsettle : settle a { s with worklist := w, stats } = .ok fresh
      (if fresh.isEmpty then { s with worklist := w, stats }
        else { s with worklist := w, stats }.spread a.pointer fresh) := settle_ite _ a
  by_cases h : fresh.isEmpty = true
  · have hsub : ∀ k ∈ a.objects, k ∈ s.pointsTo a.pointer := by
      intro k hk
      by_contra hn
      exact IdSet.isEmpty_iff.1 h k (IdSet.mem_diff.2 ⟨hk, hn⟩)
    refine ⟨s.pointsTo a.pointer, w, stats, ?_, ⟨?_, fun b hb => hb, fun b hb => Or.inl hb, ?_⟩,
      fun _ => rfl, rfl, Nat.le_refl _, Nat.le_refl _⟩
    · rw [hsettle, if_pos h, settled]
      congr
      exact (s.arena.setPointsTo_pointsTo a.pointer).symm
    · intro k
      exact ⟨Or.inl, fun hk => hk.elim id (hsub k)⟩
    · exact fun q _ k hk hn => absurd (hsub k hk) hn
  · obtain ⟨w', hw', hlist⟩ := spread_eq { s with worklist := w, stats } a.pointer fresh
    have hlist : w'.toList = w.toList ++ (s.flow.successors a.pointer).map (⟨·, fresh⟩) := hlist
    refine ⟨(s.pointsTo a.pointer).union fresh, w',
      { stats with propagations := stats.propagations + 1 }, ?_, ⟨?_, ?_, ?_, ?_⟩,
      fun he => absurd he h, rfl, Nat.le_refl _, Nat.le_succ _⟩
    · rw [hsettle, if_neg h]
      exact congrArg (EStateM.Result.ok fresh) hw'
    · intro k
      rw [IdSet.mem_union, hfresh, IdSet.mem_diff]
      by_cases hk : k ∈ s.pointsTo a.pointer <;> simp [hk]
    · intro b hb
      rw [hlist, List.mem_append]
      exact Or.inl hb
    · intro b hb
      rw [hlist, List.mem_append, List.mem_map] at hb
      rcases hb with hb | ⟨q, hq, rfl⟩
      · exact Or.inl hb
      · exact Or.inr ⟨hq, fun k hk => (IdSet.mem_diff.1 hk).1⟩
    · intro q hq k hk hn
      refine ⟨⟨q, fresh⟩, ?_, rfl, IdSet.mem_diff.2 ⟨hk, hn⟩⟩
      rw [hlist, List.mem_append]
      exact Or.inr (List.mem_map.2 ⟨q, hq, rfl⟩)

section

variable {x : PointsToSet} {l : Location}

theorem mem_pointsTo_settled (h : Settles s a w x w') (hl : s.arena.location? a.pointer = some l)
    {i : PointerId} {k : CSObjId} : k ∈ (settled s a.pointer x w' stats').pointsTo i ↔
      k ∈ s.pointsTo i ∨ i = a.pointer ∧ k ∈ a.objects := by
  show k ∈ (s.arena.setPointsTo a.pointer x).pointsTo i ↔ _
  have hlt := Arena.lt_of_location? hl
  rw [Arena.pointsTo_setPointsTo]
  by_cases hi : a.pointer = i
  · subst hi
    rw [if_pos ⟨rfl, hlt⟩, h.set]
    simp
  · rw [if_neg fun hc => hi hc.1]
    have hne : ¬(i = a.pointer ∧ k ∈ a.objects) := fun hc => hi hc.1.symm
    exact ⟨Or.inl, fun hk => hk.resolve_right hne⟩

/-- Settling an arrival adds facts about its pointer only. -/
theorem found_settled (h : Settles s a w x w') (hl : s.arena.location? a.pointer = some l) {f : Fact}
    (hf : (settled s a.pointer x w' stats').Found f) : s.Found f ∨
      ∃ k ∈ a.objects, ∃ o, s.arena.object? k = some o ∧ f = .pointsTo l o := by
  cases f with
  | pointsTo m o =>
    obtain ⟨i, k, hk, hm, ho⟩ := hf
    have hm : s.arena.location? i = some m := hm
    rcases (mem_pointsTo_settled h hl).1 hk with hk | ⟨rfl, hnew⟩
    · exact Or.inl ⟨i, k, hk, hm, ho⟩
    · rw [hl] at hm
      cases hm
      exact Or.inr ⟨k, hnew, o, ho, rfl⟩
  | _ => exact Or.inl hf

/-- What an arrival brings is found once it is settled. -/
theorem found_of_settled (h : Settles s a w x w') (hl : s.arena.location? a.pointer = some l)
    {k : CSObjId} {o : HeapObject} (hk : k ∈ a.objects) (ho : s.arena.object? k = some o) :
    (settled s a.pointer x w' stats').Found (.pointsTo l o) :=
  ⟨a.pointer, k, (mem_pointsTo_settled h hl).2 (Or.inr ⟨rfl, hk⟩), hl, ho⟩

theorem grows_settled (h : Settles s a w x w') (hl : s.arena.location? a.pointer = some l)
    (hmiss : stats'.dispatchMisses = stats.dispatchMisses) (harr : stats.arrivals ≤ stats'.arrivals)
    (hprop : stats.propagations ≤ stats'.propagations) :
    { s with worklist := w, stats }.Grows (settled s a.pointer x w' stats') where
  arena := { Arena.Grows.refl s.arena with
    pointsTo := fun _ _ hk => (mem_pointsTo_settled h hl).2 (Or.inl hk) }
  flow _ := List.prefix_rfl
  entries := List.prefix_rfl
  reachable := List.prefix_rfl
  edges := List.prefix_rfl
  arrivals := harr
  propagations := hprop
  dispatchMisses := Nat.le_of_eq hmiss.symm

/-- What waited before an arrival was settled is known afterwards. -/
theorem knows_settled (hpop : s.worklist.pop = some (a, w)) (h : Settles s a w x w')
    (hl : s.arena.location? a.pointer = some l) {f : Fact} (hf : s.Waiting f) :
    (settled s a.pointer x w' stats').Knows f := by
  cases f with
  | reachable m => exact Or.inr hf
  | pointsTo m o =>
    obtain ⟨b, hb, hm, k, hk, ho⟩ := hf
    rcases List.mem_cons.1 ((Worklist.perm_of_pop hpop).mem_iff.1 hb) with rfl | hb
    · rw [hl] at hm
      cases hm
      exact Or.inl (found_of_settled h hl hk ho)
    · exact Or.inr ⟨b, h.kept b hb, hm, k, hk, ho⟩
  | _ => exact hf.elim

theorem wellFormed_settled (hw : s.WellFormed) (hpop : s.worklist.pop = some (a, w))
    (h : Settles s a w x w') (hl : s.arena.location? a.pointer = some l) :
    (settled s a.pointer x w' stats').WellFormed := by
  have hperm := Worklist.perm_of_pop hpop
  have ha : a ∈ s.worklist.toList := hperm.mem_iff.2 List.mem_cons_self
  refine { hw with arena := ?_, pointsTo := ?_, worklist := ?_ }
  · exact ⟨hw.arena.object, hw.arena.method, hw.arena.site, hw.arena.location⟩
  · intro i k hk
    rcases (mem_pointsTo_settled h hl).1 hk with hk | ⟨-, hk⟩
    · exact hw.pointsTo i k hk
    · exact (hw.worklist a ha).2 k hk
  · intro b hb
    rcases h.added b hb with hb | ⟨hq, hsub⟩
    · exact hw.worklist b (hperm.mem_iff.2 (List.mem_cons_of_mem a hb))
    · exact ⟨(hw.flow _ _ hq).2, fun k hk => (hw.worklist a ha).2 k (hsub k hk)⟩

/-- What was found before an arrival was settled is found afterwards. -/
theorem found_settled_of_found (h : Settles s a w x w') (hl : s.arena.location? a.pointer = some l)
    {f : Fact} (hf : s.Found f) : (settled s a.pointer x w' stats').Found f := by
  cases f with
  | pointsTo m o =>
    obtain ⟨i, k, hk, hm, ho⟩ := hf
    exact ⟨i, k, (mem_pointsTo_settled h hl).2 (Or.inl hk), hm, ho⟩
  | _ => exact hf

/-- Nothing that a location points to is lost at a flow edge: what is new has been passed on. -/
theorem flows_settled (hs : s.Sound setup F) (hpop : s.worklist.pop = some (a, w))
    (h : Settles s a w x w') (hl : s.arena.location? a.pointer = some l) {m m' : Location}
    {o : HeapObject} (hm : s.Found (.flow m m'))
    (ho : (settled s a.pointer x w' stats').Found (.pointsTo m o)) :
    (settled s a.pointer x w' stats').Knows (.pointsTo m' o) := by
  have hold : s.Found (.pointsTo m o) → (settled s a.pointer x w' stats').Knows (.pointsTo m' o) := by
    intro ho
    rcases hs.flows m m' o hm ho with hf | hf
    · exact Or.inl (found_settled_of_found h hl hf)
    · exact knows_settled hpop h hl hf
  rcases found_settled h hl ho with ho | ⟨k, hk, o', hko, heq⟩
  · exact hold ho
  cases heq
  -- only an object that was not in the set before has been passed on
  by_cases hin : k ∈ s.pointsTo a.pointer
  · exact hold ⟨a.pointer, k, hin, hl, hko⟩
  · obtain ⟨i, q, hq, hi, hm'⟩ := hm
    rw [Arena.eq_of_location? hi hl] at hq
    obtain ⟨b, hb, rfl, hkb⟩ := h.passedOn q hq k hk hin
    exact Or.inr ⟨b, hb, hm', k, hkb, hko⟩

theorem sound_settled (hF : Closed setup entries F) (hs : s.Sound setup F)
    (hpop : s.worklist.pop = some (a, w)) (h : Settles s a w x w')
    (hl : s.arena.location? a.pointer = some l) :
    (settled s a.pointer x w' stats').Sound setup F := by
  have hw := hs.wellFormed
  have hperm := Worklist.perm_of_pop hpop
  have ha : a ∈ s.worklist.toList := hperm.mem_iff.2 List.mem_cons_self
  have hobj : ∀ k ∈ a.objects, ∃ o, s.arena.object? k = some o ∧ F (.pointsTo l o) := by
    intro k hk
    obtain ⟨o, ho⟩ := hw.arena.object k ((hw.worklist a ha).2 k hk)
    exact ⟨o, ho, hs.knows _ (Or.inr ⟨a, ha, hl, k, hk, ho⟩)⟩
  refine ⟨wellFormed_settled hw hpop h hl, ?_, ?_, ?_, ?_⟩
  · exact fun o ho => hs.heap o ho
  · exact fun kind y m hc => hs.calls kind y m hc
  · rintro f (hf | hf)
    · rcases found_settled h hl hf with hf | ⟨k, hk, o, ho, rfl⟩
      · exact hs.knows f (Or.inl hf)
      · obtain ⟨o', ho', hF⟩ := hobj k hk
        rw [ho] at ho'
        cases ho'
        exact hF
    · cases f with
      | reachable m => exact hs.knows _ (Or.inr hf)
      | pointsTo m o =>
        obtain ⟨b, hb, hm, k, hk, ho⟩ := hf
        rcases h.added b hb with hb | ⟨hq, hsub⟩
        · exact hs.knows _ (Or.inr ⟨b, hperm.mem_iff.2 (List.mem_cons_of_mem a hb), hm, k, hk, ho⟩)
        · obtain ⟨o', ho', hlo⟩ := hobj k (hsub k hk)
          have ho : s.arena.object? k = some o := ho
          rw [ho] at ho'
          cases ho'
          exact hF.flow (hs.knows _ (Or.inl ⟨a.pointer, b.pointer, hq, hl, hm⟩)) hlo
      | _ => exact hf.elim
  · exact fun m m' o hm ho => flows_settled hs hpop h hl hm ho

end

end

/-! ## Arrivals -/

section

variable {i : PointerId} {l : Location} {a : Arrival} {w : Worklist} {stats : SolverStats}

/-- The points-to facts about the location `l` and the objects of some ids. -/
def pointees (a : Arena) (l : Location) (xs : List CSObjId) : List (Location × HeapObject) :=
  xs.filterMap fun k => (a.object? k).map (l, ·)

theorem mem_pointees {b : Arena} {xs : List CSObjId} {p : Location × HeapObject} :
    p ∈ pointees b l xs ↔ p.1 = l ∧ ∃ k ∈ xs, b.object? k = some p.2 := by
  simp only [pointees, List.mem_filterMap, Option.map_eq_some_iff]
  constructor
  · rintro ⟨k, hk, o, ho, rfl⟩
    exact ⟨rfl, k, hk, ho⟩
  · rintro ⟨rfl, k, hk, ho⟩
    exact ⟨k, hk, p.2, ho, rfl⟩

theorem nodup_pointees {b : Arena} {xs : List CSObjId} (hxs : xs.Nodup) :
    (pointees b l xs).Nodup := by
  refine hxs.filterMap ?_
  intro k k' p hk hk'
  simp only [Option.mem_def, Option.map_eq_some_iff] at hk hk'
  obtain ⟨o, ho, rfl⟩ := hk
  obtain ⟨o', ho', heq⟩ := hk'
  cases heq
  exact Arena.eq_of_object? ho ho'

/-- The misses of a loop over objects are those of the objects. -/
theorem sum_pointees {b : Arena} {xs : List CSObjId} :
    ((pointees b l xs).map fun p => setup.missCount p.1 p.2).sum =
      (xs.map fun k => ((b.object? k).map (setup.missCount l)).getD 0).sum := by
  induction xs with
  | nil => rfl
  | cons k xs ih =>
    rw [List.map_cons, List.sum_cons, ← ih]
    cases h : b.object? k <;> simp [pointees, h]

/-- What a pointer does with objects that are new to it, if it is one of a variable. -/
def meetAll (setup : Setup) (i : PointerId) (xs : List CSObjId) : SolveM Unit := do
  match (← get).arena.pointers.get? i with
  | some (.var c v) => xs.forM fun object => meetObject setup c v object
  | _ => pure ()

/-- Without new objects nothing is done. -/
theorem meetAll_nil (i : PointerId) : meetAll setup i [] s = .ok () s := by
  show (match s.arena.pointers.get? i with
    | some (.var c v) => pure ()
    | _ => pure () : SolveM Unit) s = _
  generalize s.arena.pointers.get? i = p
  cases p with
  | none => rfl
  | some p => cases p <;> rfl

/-- What objects new at a location entail is known after the variable, if it is one, has met them. -/
theorem acts_meetAll (hset : setup.WellFormed) (hF : Closed setup entries F)
    (hs : s.Sound setup F) (hl : s.arena.location? i = some l) (xs : List CSObjId)
    (hxs : ∀ k ∈ xs, ∃ o, s.arena.object? k = some o ∧ F (.pointsTo l o)) :
    Acts setup F ((pointees s.arena l xs).map fun p => setup.missCount p.1 p.2).sum
      (meetAll setup i xs) s
      fun _ t => ∀ k ∈ xs, ∀ o, s.arena.object? k = some o → t.Covers setup (.pointsTo l o) := by
  obtain ⟨p, hp, hpl⟩ := Arena.location?_eq_some_iff.1 hl
  refine Acts.bind_of_eq get_eq ?_
  rw [hp]
  by_cases hvar : ∃ c v, l = .var c v
  · obtain ⟨c, v, rfl⟩ := hvar
    obtain ⟨k, rfl, hk⟩ := Arena.locate?_eq_var_iff.1 hpl
    rw [sum_pointees]
    refine Acts.forM hs (fun h hj o ho => h.covers (hj o ho)) ?_
    · intro j hj t n ht
      obtain ⟨o, ho, hv⟩ := hxs j hj
      have hp' := ht.grows.arena.pointers _ _ hp
      have hk' := ht.grows.arena.contexts _ _ hk
      have ho' := ht.grows.arena.object? ho
      rw [ho]
      refine Acts.mono (acts_meetObject hset hF ht.sound hp' hk' ho' hv) ?_
      rintro - u - hall o' ⟨⟩
      exact hall
  · have hzero : ((pointees s.arena l xs).map fun p => setup.missCount p.1 p.2).sum = 0 := by
      rw [List.sum_eq_zero_iff_forall_eq_nat]
      intro n hn
      obtain ⟨q, hq, rfl⟩ := List.mem_map.1 hn
      rw [(mem_pointees.1 hq).1]
      cases l with
      | var c v => exact absurd ⟨c, v, rfl⟩ hvar
      | _ => rfl
    have hpure : (match some p with
        | some (.var c v) => xs.forM fun object => meetObject setup c v object
        | _ => pure () : SolveM Unit) = pure () := by
      cases p with
      | var k v =>
        obtain ⟨c, -, hc⟩ := Option.map_eq_some_iff.1 hpl
        exact absurd ⟨c, v, hc.symm⟩ hvar
      | _ => rfl
    rw [hzero, hpure]
    refine Acts.pure hs ?_
    intro k hk o ho
    constructor
    · intro f hf
      cases hf with
      | holder => exact Or.inl ⟨i, hl⟩
      | held => exact Or.inl ⟨k, ho⟩
      | access | invocation => exact absurd ⟨_, _, rfl⟩ hvar
    · intro e he
      cases he with
      | refusal => exact absurd ⟨_, _, rfl⟩ hvar

/-- An object that is not in the set of a pointer is not found at its location. -/
theorem not_found_of_not_mem (hl : s.arena.location? i = some l) {k : CSObjId} {o : HeapObject}
    (ho : s.arena.object? k = some o) (hk : k ∉ s.pointsTo i) : ¬s.Found (.pointsTo l o) := by
  intro hf
  obtain ⟨k', hk', ho'⟩ := State.exists_mem_pointsTo_of_found hl hf
  rw [Arena.eq_of_object? ho' ho] at hk'
  exact hk hk'

/-- Once the new objects of an arrival have been met, the state that the arrival was taken from is
extended. -/
theorem extends_settled {x : PointsToSet} {w' : Worklist} {stats' : SolverStats} {t : State}
    (h : Settles s a w x w') (hl : s.arena.location? a.pointer = some l)
    (hv : (settled s a.pointer x w' stats').Sound setup F)
    (hgrows : { s with worklist := w, stats }.Grows (settled s a.pointer x w' stats'))
    (hmiss : stats'.dispatchMisses = stats.dispatchMisses) (fresh : PointsToSet)
    (hfresh : ∀ k, k ∈ fresh ↔ k ∈ a.objects ∧ k ∉ s.pointsTo a.pointer)
    (ht : Evolves setup F
      ((pointees s.arena l fresh.toList).map fun p => setup.missCount p.1 p.2).sum
      (settled s a.pointer x w' stats') t)
    (hall : ∀ k ∈ fresh.toList, ∀ o, s.arena.object? k = some o →
      t.Covers setup (.pointsTo l o)) :
    Extends setup F { s with worklist := w, stats } t := by
  have hadded : ∀ g, (settled s a.pointer x w' stats').Found g → s.Found g ∨
      ∃ k ∈ fresh, ∃ o, s.arena.object? k = some o ∧ g = .pointsTo l o := by
    intro g hg
    rcases found_settled h hl hg with hg | ⟨k, hk, o, ho, rfl⟩
    · exact Or.inl hg
    · by_cases hold : k ∈ s.pointsTo a.pointer
      · exact Or.inl ⟨a.pointer, k, hold, hl, ho⟩
      · exact Or.inr ⟨k, (hfresh k).2 ⟨hk, hold⟩, o, ho, rfl⟩
  refine ⟨hgrows.trans ht.grows, ht.sound, ?_, ?_, ?_⟩
  · intro f hf
    refine ht.waiting f ?_
    cases f with
    | reachable m => exact hf
    | pointsTo m o =>
      obtain ⟨b, hb, hm, k, hk, ho⟩ := hf
      exact ⟨b, h.kept b hb, hm, k, hk, ho⟩
    | _ => exact hf.elim
  · intro g hg
    rcases ht.found hv hg with hg | hg
    · rcases hadded g hg with hg | ⟨k, hk, o, ho, rfl⟩
      · exact Or.inl (State.found_of_eq rfl rfl rfl hg)
      · exact Or.inr (hall k hk o ho)
    · exact Or.inr hg
  · intro hc
    refine hc.append (pointees s.arena l fresh.toList) (nodup_pointees ?_) ?_ ?_ ?_
    · exact fresh.sorted.imp Nat.ne_of_lt
    · rintro ⟨m, o⟩ hp hf
      obtain ⟨rfl, k, hk, ho⟩ := mem_pointees.1 hp
      exact not_found_of_not_mem hl ho ((hfresh k).1 hk).2 hf
    · intro m o
      constructor
      · intro hf
        rcases hadded _ (ht.found_pointsTo hv hf) with hf | ⟨k, hk, o', ho, heq⟩
        · exact Or.inl hf
        · cases heq
          exact Or.inr (mem_pointees.2 ⟨rfl, k, hk, ho⟩)
      · rintro (hf | hf)
        · exact (hgrows.trans ht.grows).found hf
        · obtain ⟨rfl, k, hk, ho⟩ := mem_pointees.1 hf
          exact ht.grows.found (found_of_settled h hl ((hfresh k).1 hk).1 ho)
    · rw [ht.misses_eq]
      show stats'.dispatchMisses + _ = _
      rw [hmiss]

/-- Handling an arrival finds what it brings. -/
theorem ends_handle (hset : setup.WellFormed) (hF : Closed setup entries F) (hs : s.Sound setup F)
    (hpop : s.worklist.pop = some (a, w)) (hl : s.arena.location? a.pointer = some l) :
    Ends (handle setup a) { s with worklist := w, stats }
      (fun _ t => Extends setup F { s with worklist := w, stats } t ∧
        (∀ k ∈ a.objects, ∀ o, s.arena.object? k = some o → t.Found (.pointsTo l o)) ∧
        (t.pending = s.pending ∧ t.worklist = w ∨
          ∃ o, t.Found (.pointsTo l o) ∧ ¬s.Found (.pointsTo l o)))
      (Fails setup F) := by
  have hw := hs.wellFormed
  have ha : a ∈ s.worklist.toList := (Worklist.perm_of_pop hpop).mem_iff.2 List.mem_cons_self
  obtain ⟨x, w', stats', hsettle, h, hsame, hmiss, harr, hprop⟩ := settle_eq s a w stats
  have hgrows := grows_settled h hl hmiss harr hprop
  have hv : (settled s a.pointer x w' stats').Sound setup F := sound_settled hF hs hpop h hl
  set fresh := a.objects.diff (s.pointsTo a.pointer) with hfresh
  have hnew : ∀ k, k ∈ fresh ↔ k ∈ a.objects ∧ k ∉ s.pointsTo a.pointer := by
    intro k
    rw [hfresh, IdSet.mem_diff]
  have hxs : ∀ k ∈ fresh, ∃ o, s.arena.object? k = some o ∧ F (.pointsTo l o) := by
    intro k hk
    have hka := ((hnew k).1 hk).1
    obtain ⟨o, ho⟩ := hw.arena.object k ((hw.worklist a ha).2 k hka)
    exact ⟨o, ho, hs.knows _ (Or.inr ⟨a, ha, hl, k, hka, ho⟩)⟩
  refine Ends.bind_of_eq hsettle ?_
  by_cases hempty : fresh.toList = []
  · -- nothing is new, so nothing is done but to take the arrival
    have hrest : meetAll setup a.pointer fresh.toList (settled s a.pointer x w' stats') =
        .ok () (settled s a.pointer x w' stats') := by
      rw [hempty]
      exact meetAll_nil a.pointer
    have hzero : ((pointees s.arena l fresh.toList).map fun p => setup.missCount p.1 p.2).sum = 0 := by
      rw [hempty]
      rfl
    have hev := Evolves.refl hv
    have hext := extends_settled h hl hv hgrows hmiss fresh hnew (by rw [hzero]; exact hev) (by
      rw [hempty]
      exact fun k hk => absurd hk List.not_mem_nil)
    refine Ends.of_eq hrest ⟨hext, ?_, Or.inl ⟨rfl, ?_⟩⟩
    · intro k hk o ho
      exact found_of_settled h hl hk ho
    · exact hsame (List.isEmpty_iff.2 hempty)
  · refine Ends.mono (acts_meetAll hset hF hv hl fresh.toList hxs) ?_ fun _ _ h => h
    rintro - t ⟨ht, hall⟩
    refine ⟨extends_settled h hl hv hgrows hmiss fresh hnew ht hall, ?_, Or.inr ?_⟩
    · intro k hk o ho
      exact ht.grows.found (found_of_settled h hl hk ho)
    · obtain ⟨k, hk⟩ := List.exists_mem_of_ne_nil _ hempty
      obtain ⟨o, ho, -⟩ := hxs k hk
      obtain ⟨hka, hkn⟩ := (hnew k).1 hk
      exact ⟨o, ht.grows.found (found_of_settled h hl hka ho), not_found_of_not_mem hl ho hkn⟩

end

end PointsTo.Solver
