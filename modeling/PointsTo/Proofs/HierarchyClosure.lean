import PointsTo.Collection.Distinct
import PointsTo.Proofs.HierarchyTargets
import PointsTo.Proofs.Linking

/-!
# The call graph of the hierarchy is the least closed one

Methods are queued whenever a call may run them, and dropped from the queue when they turn out to be
known. Neither the order nor the repetitions show in the result: a method is reachable if calls lead to
it from the entries, and an edge is there if the call at its site may run its callee (`Exact`). That the
graph holds enough of them is known already (`closed_graphFrom`); that it holds no more is an invariant of
the search (`Justified`). A search also stops early, at a static call that names no method, and then one of
the methods to which calls lead contains such a call.
-/

namespace PointsTo

namespace CallGraph

variable {S M : Type} [DecidableEq S] [DecidableEq M] {g : CallGraph S M}

/-- The two ends of every edge. -/
def ends (g : CallGraph S M) : List (S × M) := g.edges.map fun e => (e.site, e.callee)

theorem mem_ends_iff {x : S} {m : M} : (x, m) ∈ g.ends ↔ g.hasEdge x m = true := by
  simp [ends, hasEdge_iff]

theorem ends_addEdge (e : CallEdge S M) : (g.addEdge e).ends = insertNew g.ends (e.site, e.callee) := by
  simp only [addEdge_eq, insertNew, mem_ends_iff]
  split
  · rfl
  · exact List.map_append

theorem nodup_ends_foldl_addEdge (h : g.ends.Nodup) (es : List (CallEdge S M)) :
    (es.foldl addEdge g).ends.Nodup := by
  induction es generalizing g with
  | nil => exact h
  | cons e es ih =>
    refine ih ?_
    rw [ends_addEdge]
    exact nodup_insertNew h _

end CallGraph

/-- A static call in the body of `m` names a method that its class does not declare. -/
def Program.DanglesIn (p : Program) (m : MethodId) (e : ProgramError) : Prop :=
  ∃ i d, p.stmt? ⟨m, i⟩ = some (.call d) ∧ d.isStatic = true ∧
    p.declared? d.target.owner d.target.subsignature = none ∧
    e = .danglingMethod (.atCall (p.className d.target.owner) d.target.subsignature)

namespace IndexedProgram

variable {p : IndexedProgram} {entries : List MethodId} {m : MethodId} {s t : HierarchySearch}
  {site : Site} {c : Call} {g : CallGraph Site MethodId}

/-- Calls lead from the entries to a method, as far as the hierarchy tells. -/
inductive HierarchyReaches (p : IndexedProgram) (entries : List MethodId) : MethodId → Prop where
  | entry {m : MethodId} (listed : m ∈ entries) : HierarchyReaches p entries m
  | call {m callee : MethodId} (caller : HierarchyReaches p entries m) (calls : p.MayCall m callee) :
      HierarchyReaches p entries callee

/-- The call at the site of the edge may run its callee, and the edge has its kind. -/
def Allows (p : IndexedProgram) (e : CallEdge Site MethodId) : Prop :=
  ∃ d ts, p.stmt? e.site = some (.call d) ∧ p.targets d = .ok ts ∧ e.callee ∈ ts ∧
    e.kind = .ofMode d.mode

/-- The methods to which calls lead and the edges that they allow, each of them once. -/
structure Exact (p : IndexedProgram) (entries : List MethodId) (g : CallGraph Site MethodId) :
    Prop where
  reachable : ∀ m, m ∈ g.reachable ↔ p.HierarchyReaches entries m
  edges : ∀ e, e ∈ g.edges ↔ e.site.method ∈ g.reachable ∧ p.Allows e
  reachable_nodup : g.reachable.Nodup
  ends_nodup : g.ends.Nodup

/-! ## Nothing without a reason -/

/-- What a search holds has a reason in the program, and it holds nothing twice. -/
structure Justified (p : IndexedProgram) (entries : List MethodId) (s : HierarchySearch) : Prop where
  reachable : ∀ m ∈ s.graph.reachable, p.HierarchyReaches entries m
  queue : ∀ m ∈ s.queue, p.HierarchyReaches entries m
  edges : ∀ e ∈ s.graph.edges, p.HierarchyReaches entries e.site.method ∧ p.Allows e
  reachable_nodup : s.graph.reachable.Nodup
  ends_nodup : s.graph.ends.Nodup

/-- A method to which calls lead has a static call without a target. -/
def Stuck (p : IndexedProgram) (entries : List MethodId) (e : ProgramError) : Prop :=
  ∃ m, p.HierarchyReaches entries m ∧ p.DanglesIn m e

theorem justified_start (entries : List MethodId) :
    p.Justified entries ⟨entries.foldl .addEntry ∅, entries⟩ := by
  obtain ⟨ms, hstart⟩ := exists_foldl_addEntry entries ∅
  rw [hstart]
  exact ⟨nofun, fun m hm => .entry hm, nofun, List.nodup_nil, List.nodup_nil⟩

/-- The search takes the next method from its queue. -/
theorem Justified.meet {rest : List MethodId} (h : p.Justified entries s)
    (hround : s.queue.dropWhile (s.graph.reaches ·) = m :: rest) :
    p.Justified entries ⟨s.graph.addReachable m, rest⟩ := by
  rw [CallGraph.dropWhile_reaches] at hround
  have hsub : m :: rest ⊆ s.queue := Search.rest_subset_of_round hround
  have hnew : m ∉ s.graph.reachable := Search.not_met_of_round hround
  rw [CallGraph.addReachable_eq, if_neg hnew]
  refine ⟨?_, ?_, h.edges, ?_, h.ends_nodup⟩
  · intro m' hm'
    rcases List.mem_append.1 hm' with hm' | hm'
    · exact h.reachable m' hm'
    · exact List.mem_singleton.1 hm' ▸ h.queue m (hsub List.mem_cons_self)
  · intro m' hm'
    exact h.queue m' (hsub (List.mem_cons_of_mem m hm'))
  · exact List.nodup_append_comm.1 (List.nodup_cons.2 ⟨hnew, h.reachable_nodup⟩)

/-- A call in a method to which calls lead is followed, or it has no target. -/
theorem justified_followCall (hreach : p.HierarchyReaches entries site.method)
    (hs : p.stmt? site = some (.call c)) (h : p.Justified entries s) :
    HierarchySearch.Outcome (p.Justified entries) (p.Stuck entries) (p.followCall site c s) := by
  cases hts : p.targets c with
  | error e =>
    obtain ⟨hstatic, hnone, he⟩ := of_targets_eq_error hts
    rw [followCall, hts]
    exact ⟨site.method, hreach, site.index, c, hs, hstatic, hnone, he⟩
  | ok ts =>
    rw [followCall_eq hts]
    refine ⟨?_, ?_, ?_, ?_, ?_⟩
    · rw [reachable_foldl_addEdge]
      exact h.reachable
    · intro m hm
      rcases List.mem_append.1 hm with hm | hm
      · exact h.queue m hm
      · exact .call hreach ⟨site.index, c, ts, hs, hts, IdSet.mem_toList.1 hm⟩
    · intro e he
      rcases CallGraph.of_mem_edges_foldl_addEdge he with he | he
      · exact h.edges e he
      · obtain ⟨m, hm, rfl⟩ := List.mem_map.1 he
        exact ⟨hreach, c, ts, hs, hts, IdSet.mem_toList.1 hm, rfl⟩
    · rw [reachable_foldl_addEdge]
      exact h.reachable_nodup
    · exact CallGraph.nodup_ends_foldl_addEdge h.ends_nodup _

/-- Whatever a search comes to has a reason: its graph as well as its error. -/
theorem justified_followCalls (hvalid : ∀ m, p.HierarchyReaches entries m → ∃ d, p.method? m = some d)
    (rounds : Nat) (h : p.Justified entries s) :
    (∀ g, p.followCalls rounds s = .ok g → ∃ t, p.Justified entries t ∧ t.graph = g) ∧
      ∀ e, p.followCalls rounds s = .error e → ∃ e', e = .program e' ∧ p.Stuck entries e' := by
  refine outcome_followCalls (fun s hs m hm => hvalid m (hs.queue m hm)) ?_ rounds h
  intro s m rest d hs hround hd
  have hnext : s.queue.dropWhile (· ∈ s.graph.reachable) = m :: rest := by
    rw [← CallGraph.dropWhile_reaches, hround]
  have hreach : p.HierarchyReaches entries m :=
    hs.queue m (Search.rest_subset_of_round hnext List.mem_cons_self)
  exact outcome_followMethod hd (fun s i c hs hcall => justified_followCall hreach hcall hs)
    (hs.meet hround)

/-! ## The search ends -/

/-- Once there are more rounds than methods that have not been met, further rounds change nothing. -/
theorem followCalls_succ {rounds : Nat} (h : p.Following s)
    (hrounds : p.methods.size < rounds + s.graph.reachable.length) :
    p.followCalls (rounds + 1) s = p.followCalls rounds s := by
  induction rounds generalizing s with
  | zero =>
    have := h.search.length_le
    omega
  | succ n ih =>
    rw [followCalls, followCalls]
    cases hround : s.queue.dropWhile (s.graph.reaches ·) with
    | nil => rfl
    | cons m rest =>
      dsimp only
      cases hd : p.method? m with
      | none => rfl
      | some d =>
        dsimp only
        cases hm : p.followMethod m d { s with queue := rest } with
        | error e => rfl
        | ok t =>
          obtain ⟨ht, hreachable, -⟩ := h.round hround hd hm
          refine ih ht ?_
          rw [hreachable, List.length_append, List.length_singleton]
          omega

/-! ## A closed graph holds all of it -/

theorem HierarchyClosed.reaches (h : p.HierarchyClosed entries g) (hm : p.HierarchyReaches entries m) :
    m ∈ g.reachable := by
  induction hm with
  | entry listed => exact h.entries _ listed
  | call _ calls ih =>
    obtain ⟨i, d, ts, hs, hts, hmem⟩ := calls
    obtain ⟨ts', hts', htargets⟩ := h.calls _ d hs ih
    rw [hts] at hts'
    cases hts'
    exact (htargets _ hmem).1

theorem HierarchyClosed.edge (h : p.HierarchyClosed entries g) {e : CallEdge Site MethodId}
    (hm : e.site.method ∈ g.reachable) (he : p.Allows e) : e ∈ g.edges := by
  obtain ⟨kind, site, callee⟩ := e
  obtain ⟨d, ts, hs, hts, hmem, rfl⟩ := he
  obtain ⟨ts', hts', htargets⟩ := h.calls site d hs hm
  rw [hts] at hts'
  cases hts'
  exact (htargets callee hmem).2

/-- A static call without a target would have kept the search from its end. -/
theorem HierarchyClosed.not_danglesIn (h : p.HierarchyClosed entries g) (hm : m ∈ g.reachable)
    (e : ProgramError) : ¬ p.DanglesIn m e := by
  rintro ⟨i, d, hs, hstatic, hnone, -⟩
  obtain ⟨ts, hts, -⟩ := h.calls _ d hs hm
  have hmode : d.mode = .static := by simpa [Call.isStatic] using hstatic
  have herror : p.resolveStatic d =
      .error (.danglingMethod (.atCall (p.className d.target.owner) d.target.subsignature)) := by
    rw [Program.resolveStatic, hnone]
    rfl
  rw [targets, hmode] at hts
  dsimp only at hts
  rw [herror] at hts
  cases hts

theorem HierarchyClosed.exact (h : p.HierarchyClosed entries g) (hs : p.Justified entries s)
    (hg : s.graph = g) : p.Exact entries g := by
  subst hg
  refine ⟨fun m => ⟨hs.reachable m, h.reaches⟩, fun e => ⟨fun he => ?_, fun he => h.edge he.1 he.2⟩,
    hs.reachable_nodup, hs.ends_nodup⟩
  obtain ⟨hreach, hallows⟩ := hs.edges e he
  exact ⟨h.reaches hreach, hallows⟩

/-! ## The finished graph -/

section

variable {p : Program} (hp : p.validate = .ok ())

include hp

theorem method_of_hierarchyReaches (hentries : ∀ m ∈ entries, m < p.methods.size)
    (h : p.indexed.HierarchyReaches entries m) : ∃ d, p.indexed.method? m = some d := by
  cases h with
  | entry listed => exact ⟨_, Array.getElem?_eq_getElem (hentries m listed)⟩
  | call _ calls =>
    obtain ⟨_, _, _, _, hts, hm⟩ := calls
    exact method_of_mem_targets hp hts hm

/-- The search from the entries ends, whatever number of rounds above the number of methods it is given,
and so do the walks over the classes behind it. It comes to a graph unless a method to which calls lead
has a static call without a target, in which case its error names such a call; and the graph holds the
methods to which calls lead and the edges that the calls in them allow, each once. -/
theorem graphFrom_exact (hne : entries ≠ []) (hentries : ∀ m ∈ entries, m < p.methods.size) :
    p.WalksEnd ∧
    (∀ rounds, p.methods.size < rounds →
      p.indexed.followCalls rounds ⟨entries.foldl .addEntry ∅, entries⟩ = p.indexed.graphFrom entries) ∧
    ((∃ g, p.indexed.graphFrom entries = .ok g) ↔
      ∀ m, p.indexed.HierarchyReaches entries m → ∀ e, ¬ p.DanglesIn m e) ∧
    (∀ e, p.indexed.graphFrom entries = .error e →
      ∃ m e', p.indexed.HierarchyReaches entries m ∧ p.DanglesIn m e' ∧ e = .program e') ∧
    ∀ g, p.indexed.graphFrom entries = .ok g → p.indexed.Exact entries g := by
  have hvalid : ∀ m, p.indexed.HierarchyReaches entries m → ∃ d, p.indexed.method? m = some d :=
    fun m => method_of_hierarchyReaches hp hentries
  obtain ⟨hok, herror⟩ := justified_followCalls hvalid (p.methods.size + 1) (justified_start entries)
  rw [← graphFrom_eq hp hne] at hok herror
  have hstuck : ∀ e, p.indexed.graphFrom entries = .error e →
      ∃ m e', p.indexed.HierarchyReaches entries m ∧ p.DanglesIn m e' ∧ e = .program e' := by
    intro e he
    obtain ⟨e', rfl, m, hm, hdangles⟩ := herror e he
    exact ⟨m, e', hm, hdangles, rfl⟩
  refine ⟨Program.walksEnd_of_validate hp, ?_, ⟨?_, ?_⟩, hstuck, ?_⟩
  · intro rounds hrounds
    rw [graphFrom_eq hp hne]
    induction rounds, hrounds using Nat.le_induction with
    | base => rfl
    | succ n hn ih =>
      rw [followCalls_succ (following_start entries) (Nat.lt_add_right _ hn), ih]
  · rintro ⟨g, hg⟩ m hm e
    have hclosed := closed_graphFrom hg
    exact hclosed.not_danglesIn (hclosed.reaches hm) e
  · intro hnone
    cases hg : p.indexed.graphFrom entries with
    | ok g => exact ⟨g, rfl⟩
    | error e =>
      obtain ⟨m, e', hm, hdangles, -⟩ := hstuck e hg
      exact absurd hdangles (hnone m hm e')
  · intro g hg
    obtain ⟨s, hs, hgraph⟩ := hok g hg
    exact (closed_graphFrom hg).exact hs hgraph

end

/-- `A.run` calls `this.run()` through `I`, which may run `A.run` again or `B.run`. -/
theorem graphFrom_exact_diamond :
    Sample.diamond.validate = .ok () ∧ [1] ≠ ([] : List MethodId) ∧
    (∀ m ∈ [1], m < Sample.diamond.methods.size) ∧
    ∃ g, Sample.diamond.indexed.graphFrom [1] = .ok g ∧ g.reachable = [1, 2] ∧
      g.edges = [⟨.interface, ⟨1, 0⟩, 1⟩, ⟨.interface, ⟨1, 0⟩, 2⟩] ∧
      Sample.diamond.indexed.Exact [1] g ∧
      ∀ m, Sample.diamond.indexed.HierarchyReaches [1] m → ∀ e, ¬ Sample.diamond.DanglesIn m e := by
  have hne : [1] ≠ ([] : List MethodId) := by decide
  have hentries : ∀ m ∈ [1], m < Sample.diamond.methods.size := by decide
  obtain ⟨g, hg, hlists⟩ := exists_ok_of_any (by decide +kernel :
    (Sample.diamond.indexed.graphFrom [1]).toOption.any (fun g => g.reachable = [1, 2] ∧
      g.edges = [⟨.interface, ⟨1, 0⟩, 1⟩, ⟨.interface, ⟨1, 0⟩, 2⟩]) = true)
  obtain ⟨hreachable, hedges⟩ := of_decide_eq_true hlists
  obtain ⟨-, -, hiff, -, hexact⟩ := graphFrom_exact Sample.validate_diamond hne hentries
  exact ⟨Sample.validate_diamond, hne, hentries, g, hg, hreachable, hedges, hexact g hg,
    hiff.1 ⟨g, hg⟩⟩

end IndexedProgram

end PointsTo
