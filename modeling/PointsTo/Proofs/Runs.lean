import PointsTo.Proofs.Advance

/-!
# Runs

A run starts in a state that knows the empty context only, makes the entries reachable (`ends_seed`) and
then does one thing after the other, by single steps (`ends_step`) or all at once (`ends_run`). A run
that ends well leaves nothing waiting; a run that ends in an error has met a fault, or it was given too
little fuel (`Stops`).
-/

namespace PointsTo.Solver

variable {setup : Setup} {entries : List MethodId} {F : Fact → Prop} {s : State}
  {order : WorklistOrder}

/-! ## The start -/

theorem context_of_initial {i : ContextId} {c : Context}
    (h : Arena.initial.contexts.get? i = some c) : c = ∅ := by
  rcases Interner.get?_of_intern h with h | h
  · exact nomatch h
  · exact h.2

/-- Nothing is found before the start but the empty context. -/
theorem found_initial {f : Fact} (h : (State.initial order).Found f) : f = .context ∅ := by
  cases f with
  | context c =>
    obtain ⟨i, hi⟩ := h
    rw [context_of_initial hi]
  | object o =>
    obtain ⟨i, hi⟩ := h
    exact absurd (Arena.lt_of_object? hi) (Nat.not_lt_zero i)
  | method m =>
    obtain ⟨i, hi⟩ := h
    exact absurd (Arena.lt_of_method? hi) (Nat.not_lt_zero i)
  | site x =>
    obtain ⟨i, hi⟩ := h
    exact absurd (Arena.lt_of_site? hi) (Nat.not_lt_zero i)
  | location l =>
    obtain ⟨i, hi⟩ := h
    exact absurd (Arena.lt_of_location? hi) (Nat.not_lt_zero i)
  | entry m | reachable m =>
    obtain ⟨i, hi, -⟩ := h
    exact absurd hi List.not_mem_nil
  | pointsTo l o =>
    obtain ⟨i, j, hj, -⟩ := h
    exact absurd (Arena.lt_of_mem_pointsTo hj) (Nat.not_lt_zero i)
  | flow l l' =>
    obtain ⟨i, j, hj, -⟩ := h
    exact absurd hj List.not_mem_nil
  | call kind x m =>
    obtain ⟨e, he, -⟩ := h
    exact absurd he List.not_mem_nil

theorem waiting_initial {f : Fact} : ¬(State.initial order).Waiting f := by
  intro h
  cases f with
  | reachable m =>
    obtain ⟨i, hi, -⟩ := h
    exact absurd hi List.not_mem_nil
  | pointsTo l o =>
    obtain ⟨a, ha, -⟩ := h
    exact absurd ha List.not_mem_nil
  | _ => exact h.elim

theorem wellFormed_initial : (State.initial order).WellFormed where
  arena := Arena.wellFormed_initial
  pointsTo i _ hj := absurd (Arena.lt_of_mem_pointsTo hj) (Nat.not_lt_zero i)
  flow _ _ hj := absurd hj List.not_mem_nil
  worklist _ ha := absurd ha List.not_mem_nil
  pending _ hi := absurd hi List.not_mem_nil
  entries _ hi := absurd hi List.not_mem_nil
  reachable _ hi := absurd hi List.not_mem_nil
  edges _ he := absurd he List.not_mem_nil
  nodup_flow _ := List.nodup_nil
  nodup_reachable := List.nodup_nil
  nodup_edges := List.nodup_nil

theorem sound_initial (hF : Closed setup entries F) : (State.initial order).Sound setup F where
  wellFormed := wellFormed_initial
  heap o ho := nomatch found_initial ho
  calls kind x m h := nomatch found_initial h
  knows f hf := by
    rcases hf with hf | hf
    · rw [found_initial hf]
      exact hF.empty
    · exact absurd hf waiting_initial
  flows l l' o hl ho := nomatch found_initial hl

theorem wired_initial : (State.initial order).Wired setup := by
  intro g hg
  rw [found_initial hg]
  exact ⟨nofun, nofun⟩

theorem counted_initial : (State.initial order).Counted setup := by
  refine ⟨[], List.nodup_nil, ?_, rfl⟩
  intro p
  constructor
  · intro hp
    exact absurd hp List.not_mem_nil
  · intro hp
    exact nomatch found_initial hp

/-! ## Entries -/

section

variable {j : CSMethodId} {m : MethodInstance}

/-- The state with a method among its entries. -/
def enter (s : State) (j : CSMethodId) : State :=
  { s with callGraph := s.callGraph.addEntry j }

theorem mem_entries_enter {i : CSMethodId} :
    i ∈ (enter s j).callGraph.entries ↔ i ∈ s.callGraph.entries ∨ i = j := by
  show i ∈ (s.callGraph.addEntry j).entries ↔ _
  unfold CallGraph.addEntry
  split
  · rename_i hj
    constructor
    · exact Or.inl
    · rintro (hi | rfl)
      · exact hi
      · exact hj
  · rw [List.mem_append, List.mem_singleton]

theorem callGraph_enter : (enter s j).callGraph.reachable = s.callGraph.reachable ∧
    (enter s j).callGraph.edges = s.callGraph.edges := by
  show (s.callGraph.addEntry j).reachable = _ ∧ (s.callGraph.addEntry j).edges = _
  unfold CallGraph.addEntry
  split <;> exact ⟨rfl, rfl⟩

theorem grows_enter : s.Grows (enter s j) where
  arena := .refl _
  flow _ := List.prefix_rfl
  entries := by
    show s.callGraph.entries <+: (s.callGraph.addEntry j).entries
    unfold CallGraph.addEntry
    split
    · exact List.prefix_rfl
    · exact List.prefix_append _ _
  reachable := callGraph_enter.1 ▸ List.prefix_rfl
  edges := callGraph_enter.2 ▸ List.prefix_rfl
  arrivals := Nat.le_refl _
  propagations := Nat.le_refl _
  dispatchMisses := Nat.le_refl _

theorem found_enter (hj : s.arena.method? j = some m) {f : Fact} (hf : (enter s j).Found f) :
    s.Found f ∨ f = .entry m := by
  cases f with
  | entry n =>
    obtain ⟨i, hi, hn⟩ := hf
    rcases mem_entries_enter.1 hi with hi | rfl
    · exact Or.inl ⟨i, hi, hn⟩
    · have hnm : n = m := Option.some.inj (hn.symm.trans hj)
      exact Or.inr (by rw [hnm])
  | reachable n =>
    obtain ⟨i, hi, hn⟩ := hf
    rw [callGraph_enter.1] at hi
    exact Or.inl ⟨i, hi, hn⟩
  | call kind x n =>
    obtain ⟨e, he, hk, hx, hn⟩ := hf
    rw [callGraph_enter.2] at he
    exact Or.inl ⟨e, he, hk, hx, hn⟩
  | _ => exact Or.inl hf

theorem sound_enter (hs : s.Sound setup F) (hj : s.arena.method? j = some m) (hm : F (.entry m)) :
    (enter s j).Sound setup F := by
  have hw := hs.wellFormed
  refine ⟨{ hw with
    entries := ?_
    reachable := ?_
    edges := ?_
    nodup_reachable := ?_
    nodup_edges := ?_ }, hs.heap, ?_, ?_, ?_⟩
  · intro i hi
    rcases mem_entries_enter.1 hi with hi | rfl
    · exact hw.entries i hi
    · exact Arena.lt_of_method? hj
  · intro i hi
    rw [callGraph_enter.1] at hi
    exact hw.reachable i hi
  · intro e he
    rw [callGraph_enter.2] at he
    exact hw.edges e he
  · rw [callGraph_enter.1]
    exact hw.nodup_reachable
  · rw [callGraph_enter.2]
    exact hw.nodup_edges
  · intro kind x n hc
    exact hs.calls kind x n ((found_enter hj hc).resolve_right nofun)
  · rintro f (hf | hf)
    · rcases found_enter hj hf with hf | rfl
      · exact hs.knows f (Or.inl hf)
      · exact hm
    · exact hs.knows f (Or.inr (State.waiting_of_eq rfl rfl rfl hf))
  · intro l l' o hl ho
    exact (hs.flows l l' o hl ho).imp grows_enter.found id

/-- What seeding does for one entry, under the context of id `k`. -/
def seedEntry (setup : Setup) (k : ContextId) (n : MethodId) : SolveM Unit := do
  let entry ← methodId ⟨k, n⟩
  modify fun s => { s with callGraph := s.callGraph.addEntry entry }
  addReachable setup entry

/-- Entering a method finds that it is an entry, and makes it reachable. -/
theorem ends_seedEntry (hset : setup.WellFormed) (hF : Closed setup entries F)
    (hs : s.Sound setup F) {k : ContextId} {c : Context} (hk : s.arena.contexts.get? k = some c)
    {n : MethodId} (hm : F (.entry ⟨c, n⟩)) :
    Ends (seedEntry setup k n) s
      (fun _ t => Advances setup F s t ∧ t.Found (.entry ⟨c, n⟩)) (Fails setup F) := by
  have hr := hF.rule .entry hm
  refine Ends.bind (acts_methodId hs hk (hF.rule .occurs hr)) ?_ fun _ _ h => h
  rintro j t ⟨ht, hj⟩
  refine Ends.bind_of_eq modify_eq ?_
  have hj' : (enter t j).arena.method? j = some ⟨c, n⟩ := hj
  have hentered : (enter t j).Found (.entry ⟨c, n⟩) := ⟨j, mem_entries_enter.2 (Or.inr rfl), hj⟩
  refine Ends.mono (ends_addReachable hset hF (sound_enter ht.sound hj hm) hj' hr) ?_ fun _ _ h => h
  rintro - u ⟨hext, hreach, -⟩
  -- between the two stands a state that lists the entry but does not know it to be reachable
  have hfirst : Advances setup F s t :=
    (ht.extends hs).advances rfl rfl rfl (Nat.le_refl _) rfl rfl fun _ => Or.inl
  have hknows : ∀ f, t.Knows f → u.Knows f := by
    rintro f (hf | hf)
    · exact Or.inl (hext.grows.found (grows_enter.found hf))
    · exact Or.inr (hext.waiting f (State.waiting_of_eq rfl rfl rfl hf))
  have hsecond : Advances setup F t u := by
    refine ⟨grows_enter.trans hext.grows, hext.sound, hknows, ?_, fun hc => hext.counted hc⟩
    intro hw g hg
    rcases hext.found g hg with hg | hg
    · rcases found_enter hj hg with hg | rfl
      · exact (hw g hg).mono hknows
      · refine ⟨?_, nofun⟩
        rintro f ⟨⟩
        exact Or.inl hreach
    · exact hg
  exact ⟨hfirst.trans hsecond, hext.grows.found hentered⟩

/-- All entries are entered one by one. -/
theorem ends_seedEntries (hset : setup.WellFormed) (hF : Closed setup entries F)
    (hs : s.Sound setup F) {k : ContextId} {c : Context} (hk : s.arena.contexts.get? k = some c)
    (ns : List MethodId) (hns : ∀ n ∈ ns, F (.entry ⟨c, n⟩)) :
    Ends (ns.forM (seedEntry setup k)) s
      (fun _ t => Advances setup F s t ∧ ∀ n ∈ ns, t.Found (.entry ⟨c, n⟩)) (Fails setup F) := by
  induction ns generalizing s with
  | nil => exact Ends.of_eq rfl ⟨.refl hs, fun n hn => absurd hn List.not_mem_nil⟩
  | cons n ns ih =>
    refine Ends.bind (ends_seedEntry hset hF hs hk (hns n List.mem_cons_self)) ?_ fun _ _ h => h
    rintro - t ⟨ht, hn⟩
    have hk' := ht.grows.arena.contexts _ _ hk
    refine Ends.mono (ih ht.sound hk' fun n' hn' => hns n' (List.mem_cons_of_mem n hn')) ?_
      fun _ _ h => h
    rintro - u ⟨hu, hall⟩
    refine ⟨ht.trans hu, ?_⟩
    intro n' hn'
    rcases List.mem_cons.1 hn' with rfl | hn'
    · exact hu.grows.found hn
    · exact hall n' hn'

theorem ends_seed (hset : setup.WellFormed) (hF : Closed setup entries F) (hs : s.Sound setup F)
    (hne : entries ≠ []) :
    Ends (seed setup entries) s
      (fun _ t => Advances setup F s t ∧
        ∀ n ∈ entries, t.Found (.entry ⟨setup.selector.entryContext, n⟩))
      (Fails setup F) := by
  obtain ⟨n, hn⟩ := List.exists_mem_of_ne_nil entries hne
  have hc := hF.rule .methodContext (hF.rule .occurs (hF.rule .entry (hF.entry n hn)))
  unfold seed
  rw [if_neg (by simpa using hne)]
  refine Ends.bind (acts_contextId hs hc) ?_ fun _ _ h => h
  rintro k t ⟨ht, hk⟩
  refine Ends.mono (ends_seedEntries hset hF ht.sound hk entries hF.entry) ?_ fun _ _ h => h
  rintro - u ⟨hu, hall⟩
  have hfirst : Advances setup F s t :=
    (ht.extends hs).advances rfl rfl rfl (Nat.le_refl _) rfl rfl fun _ => Or.inl
  exact ⟨hfirst.trans hu, hall⟩

end

/-! ## Going on -/

/-- A run that stops with an error has met a fault in `F`, or it was given too little fuel; the state it
leaves behind is sound. -/
def Stops (setup : Setup) (F : Fact → Prop) (e : AnalysisError) (t : State) : Prop :=
  t.Sound setup F ∧ (e = .outOfFuel ∨ ∃ f, F f ∧ Fault setup f e)

theorem Stops.of_fails {e : AnalysisError} {t : State} (h : Fails setup F e t) :
    Stops setup F e t := ⟨h.1, Or.inr h.2⟩

/-- A run goes on until nothing waits. -/
theorem ends_run (hset : setup.WellFormed) (hF : Closed setup entries F) (n : Nat)
    (hs : s.Sound setup F) :
    Ends (run setup n) s (fun _ t => Advances setup F s t ∧ ∀ f, ¬t.Waiting f)
      (Stops setup F) := by
  induction n generalizing s with
  | zero => exact show Stops setup F _ s from ⟨hs, Or.inl rfl⟩
  | succ n ih =>
    refine Ends.bind (ends_advance hset hF hs) ?_ fun _ _ => Stops.of_fails
    rintro done t ⟨hadv, hdone⟩
    have hagain : Ends (run setup n) t
        (fun _ u => Advances setup F s u ∧ ∀ f, ¬u.Waiting f) (Stops setup F) :=
      Ends.mono (ih hadv.sound) (fun _ u h => ⟨hadv.trans h.1, h.2⟩) fun _ _ h => h
    cases done with
    | wired | handled => exact hagain
    | idle =>
      rcases hdone with ⟨-, rfl, hnone⟩ | ⟨hne, -⟩
      · exact Ends.of_eq rfl ⟨hadv, hnone⟩
      · exact absurd rfl hne

/-- A step advances the state; if there was no arrival to handle, nothing waits. -/
theorem ends_step (hset : setup.WellFormed) (hF : Closed setup entries F) (n : Nat)
    (hs : s.Sound setup F) :
    Ends (step setup n) s
      (fun handled t => Advances setup F s t ∧ (handled = false → ∀ f, ¬t.Waiting f))
      (Stops setup F) := by
  induction n generalizing s with
  | zero => exact show Stops setup F _ s from ⟨hs, Or.inl rfl⟩
  | succ n ih =>
    refine Ends.bind (ends_advance hset hF hs) ?_ fun _ _ => Stops.of_fails
    rintro done t ⟨hadv, hdone⟩
    cases done with
    | wired =>
      exact Ends.mono (ih hadv.sound) (fun _ u h => ⟨hadv.trans h.1, h.2⟩) fun _ _ h => h
    | handled => exact Ends.of_eq rfl ⟨hadv, nofun⟩
    | idle =>
      rcases hdone with ⟨-, rfl, hnone⟩ | ⟨hne, -⟩
      · exact Ends.of_eq rfl ⟨hadv, fun _ => hnone⟩
      · exact absurd rfl hne

/-- What is found in a state in which nothing waits misses nothing. -/
theorem complete_of_idle (hs : s.Sound setup F) (hw : s.Wired setup) (hnone : ∀ f, ¬s.Waiting f)
    (hempty : s.Found (.context ∅))
    (hentries : ∀ n ∈ entries, s.Found (.entry ⟨setup.selector.entryContext, n⟩)) :
    Complete setup entries s.Found := by
  -- as nothing waits, to be known is to be found
  have hknows : ∀ f, s.Knows f → s.Found f := fun f hf => hf.resolve_right (hnone f)
  refine ⟨⟨hempty, hentries, ?_, ?_⟩, fun f e hf => (hw f hf).2 e, hs.heap⟩
  · intro g f hgf hg
    exact hknows f ((hw g hg).1 f hgf)
  · intro l l' o hl ho
    exact hknows _ (hs.flows l l' o hl ho)

/-- A run that ends well finds a family that misses nothing, and all of it belongs to `F`. -/
theorem ends_solve (hset : setup.WellFormed) (hF : Closed setup entries F) (n : Nat)
    (hne : entries ≠ []) :
    Ends (solve setup n entries) (.initial order)
      (fun _ t => t.Sound setup F ∧ t.Counted setup ∧ Complete setup entries t.Found)
      (Stops setup F) := by
  have hs : (State.initial order).Sound setup F := sound_initial hF
  refine Ends.bind (ends_seed hset hF hs hne) ?_ fun _ _ => Stops.of_fails
  rintro - t ⟨ht, hentries⟩
  refine Ends.mono (ends_run hset hF n ht.sound) ?_ fun _ _ h => h
  rintro - u ⟨hu, hnone⟩
  have hadv := ht.trans hu
  refine ⟨hu.sound, hadv.counted counted_initial, ?_⟩
  refine complete_of_idle hu.sound (hadv.wired wired_initial) hnone ?_ ?_
  · exact hadv.grows.found ⟨0, rfl⟩
  · intro n hn
    exact hu.grows.found (hentries n hn)

end PointsTo.Solver
