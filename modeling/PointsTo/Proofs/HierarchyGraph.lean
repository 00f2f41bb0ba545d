import PointsTo.Proofs.Projection
import PointsTo.Proofs.Subtypes

/-!
# What the call graph of the hierarchy holds

A call is followed by adding its edges and queueing its targets, so a search only grows
(`HierarchySearch.Grows`), and after a method every call in its body has been followed. When the queue
is empty the graph is closed: the targets of every call in a reachable method are reachable, with an
edge of the call's kind (`closed_hierarchyGraph`).
-/

namespace PointsTo

namespace IndexedProgram

variable {p : IndexedProgram} {m : MethodId} {d : MethodDecl} {site : Site} {c : Call}
  {s t u : HierarchySearch}

/-- The hierarchy lets a call in the body of `m` run `callee`. -/
def MayCall (p : IndexedProgram) (m callee : MethodId) : Prop :=
  ∃ i c ts, p.stmt? ⟨m, i⟩ = some (.call c) ∧ p.targets c = .ok ts ∧ callee ∈ ts

namespace HierarchySearch

/-- How a search grows while it follows the calls of a method: nothing is dropped, and every new edge
stands for a call statement and has its kind. -/
structure Grows (p : IndexedProgram) (s t : HierarchySearch) : Prop where
  reachable : t.graph.reachable = s.graph.reachable
  queue : s.queue ⊆ t.queue
  hasEdge : ∀ x m, s.graph.hasEdge x m = true → t.graph.hasEdge x m = true
  edges : ∀ e ∈ t.graph.edges, e ∈ s.graph.edges ∨
    ∃ c, p.stmt? e.site = some (.call c) ∧ e.kind = .ofMode c.mode

theorem Grows.refl (p : IndexedProgram) (s : HierarchySearch) : s.Grows p s where
  reachable := rfl
  queue := List.Subset.refl _
  hasEdge _ _ h := h
  edges _ he := Or.inl he

theorem Grows.trans (h : s.Grows p t) (h' : t.Grows p u) : s.Grows p u where
  reachable := h'.reachable.trans h.reachable
  queue := List.Subset.trans h.queue h'.queue
  hasEdge x m hx := h'.hasEdge x m (h.hasEdge x m hx)
  edges e he := (h'.edges e he).elim (h.edges e) Or.inr

/-- The call at a site has its targets, each with an edge and in the queue. -/
def Followed (p : IndexedProgram) (site : Site) (c : Call) (s : HierarchySearch) : Prop :=
  ∃ ts, p.targets c = .ok ts ∧ ∀ m ∈ ts, m ∈ s.queue ∧ s.graph.hasEdge site m = true

theorem Followed.mono (h : s.Followed p site c) (hg : s.Grows p t) : t.Followed p site c := by
  obtain ⟨ts, hts, hm⟩ := h
  exact ⟨ts, hts, fun m hmem => ⟨hg.queue (hm m hmem).1, hg.hasEdge _ _ (hm m hmem).2⟩⟩

end HierarchySearch

/-! ## Following calls -/

theorem reachable_foldl_addEdge (es : List (CallEdge Site MethodId)) (g : CallGraph Site MethodId) :
    (es.foldl .addEdge g).reachable = g.reachable := by
  induction es generalizing g with
  | nil => rfl
  | cons e es ih =>
    rw [List.foldl_cons, ih, CallGraph.addEdge_eq]
    split <;> rfl

theorem reachable_foldl_addEntry (ms : List MethodId) (g : CallGraph Site MethodId) :
    (ms.foldl .addEntry g).reachable = g.reachable := by
  induction ms generalizing g with
  | nil => rfl
  | cons m ms ih =>
    rw [List.foldl_cons, ih, CallGraph.addEntry]
    split <;> rfl

/-- Following a call adds its edges and queues its targets. -/
theorem followCall_eq {ts : IdSet} (hts : p.targets c = .ok ts) : p.followCall site c s =
    .ok ⟨(ts.toList.map fun m => ⟨.ofMode c.mode, site, m⟩).foldl .addEdge s.graph,
      s.queue ++ ts.toList⟩ := by
  rw [followCall, hts, List.foldl_map]
  rfl

theorem followed_of_followCall (hs : p.stmt? site = some (.call c))
    (h : p.followCall site c s = .ok t) : s.Grows p t ∧ t.Followed p site c := by
  obtain ⟨ts, hts, -⟩ := bind_eq_ok_iff.1 h
  rw [followCall_eq hts] at h
  cases h
  refine ⟨⟨?_, List.subset_append_left _ _, ?_, ?_⟩, ts, hts, fun m hm => ⟨?_, ?_⟩⟩
  · exact reachable_foldl_addEdge _ _
  · intro x m hx
    exact CallGraph.hasEdge_foldl_addEdge (Or.inl hx)
  · intro e he
    refine (CallGraph.of_mem_edges_foldl_addEdge he).imp id fun he => ?_
    obtain ⟨m, -, rfl⟩ := List.mem_map.1 he
    exact ⟨c, hs, rfl⟩
  · exact List.mem_append_right _ (IdSet.mem_toList.2 hm)
  · exact CallGraph.hasEdge_foldl_addEdge
      (Or.inr ⟨_, List.mem_map.2 ⟨m, IdSet.mem_toList.2 hm, rfl⟩, rfl, rfl⟩)

/-- What following does at one statement of a body. -/
def followStmt (p : IndexedProgram) (m : MethodId) (s : HierarchySearch) :
    Stmt × Nat → Except ProgramError HierarchySearch
  | (.call c, i) => p.followCall ⟨m, i⟩ c s
  | _ => pure s

theorem followMethod_eq : p.followMethod m d s =
    d.body.zipIdx.foldlM (p.followStmt m) { s with graph := s.graph.addReachable m } := by
  rw [followMethod]
  congr 1
  funext s x
  obtain ⟨stmt, i⟩ := x
  cases stmt <;> rfl

theorem stmt?_of_mem_zipIdx (hd : p.method? m = some d) :
    ∀ x ∈ d.body.zipIdx, p.stmt? ⟨m, x.2⟩ = some x.1 := fun _ hx =>
  Program.stmt?_eq_some_iff.2 ⟨d, hd, List.mem_zipIdx_iff_getElem?.1 hx⟩

theorem followed_of_followStmt {stmt : Stmt} {i : Nat} (hs : p.stmt? ⟨m, i⟩ = some stmt)
    (h : p.followStmt m s (stmt, i) = .ok t) :
    s.Grows p t ∧ ∀ c, stmt = .call c → t.Followed p ⟨m, i⟩ c := by
  cases stmt with
  | call c =>
    obtain ⟨hgrows, hfollowed⟩ := followed_of_followCall hs h
    exact ⟨hgrows, fun c' hc => by cases hc; exact hfollowed⟩
  | _ =>
    cases h
    exact ⟨.refl p _, nofun⟩

/-- Following a part of a body follows every call in it. -/
theorem followed_of_followStmts {l : List (Stmt × Nat)} (hl : ∀ x ∈ l, p.stmt? ⟨m, x.2⟩ = some x.1)
    (h : l.foldlM (p.followStmt m) s = .ok t) :
    s.Grows p t ∧ ∀ c i, (Stmt.call c, i) ∈ l → t.Followed p ⟨m, i⟩ c := by
  induction l generalizing s with
  | nil =>
    cases h
    exact ⟨.refl p _, nofun⟩
  | cons x l ih =>
    obtain ⟨stmt, i⟩ := x
    rw [List.foldlM_cons] at h
    obtain ⟨u, hu, h⟩ := bind_eq_ok_iff.1 h
    obtain ⟨hgrows, hfollowed⟩ := followed_of_followStmt (hl (stmt, i) List.mem_cons_self) hu
    obtain ⟨hgrows', hfollowed'⟩ := ih (fun x hx => hl x (List.mem_cons_of_mem _ hx)) h
    refine ⟨hgrows.trans hgrows', fun c k hk => ?_⟩
    rcases List.mem_cons.1 hk with hk | hk
    · cases hk
      exact (hfollowed c rfl).mono hgrows'
    · exact hfollowed' c k hk

/-- Following a method follows every call of its body. -/
theorem followed_of_followMethod (hd : p.method? m = some d) (h : p.followMethod m d s = .ok t) :
    HierarchySearch.Grows p { s with graph := s.graph.addReachable m } t ∧
      ∀ i c, p.stmt? ⟨m, i⟩ = some (.call c) → t.Followed p ⟨m, i⟩ c := by
  rw [followMethod_eq] at h
  obtain ⟨hgrows, hfollowed⟩ := followed_of_followStmts (stmt?_of_mem_zipIdx hd) h
  refine ⟨hgrows, fun i c hs => hfollowed c i ?_⟩
  obtain ⟨d', hd', hb⟩ := Program.stmt?_eq_some_iff.1 hs
  rw [hd] at hd'
  cases hd'
  exact List.mem_zipIdx_iff_getElem?.2 hb

/-! ## What a search comes to -/

/-- A search step comes to a search with the property `I`, or to an error with the property `E`. -/
def HierarchySearch.Outcome (I : HierarchySearch → Prop) (E : ProgramError → Prop) :
    Except ProgramError HierarchySearch → Prop
  | .ok s => I s
  | .error e => E e

section

variable {I : HierarchySearch → Prop} {E : ProgramError → Prop}

/-- If following one call keeps a property, following a method keeps it. -/
theorem outcome_followMethod (hd : p.method? m = some d) (hcall : ∀ s i c, I s →
      p.stmt? ⟨m, i⟩ = some (.call c) → HierarchySearch.Outcome I E (p.followCall ⟨m, i⟩ c s))
    (hs : I { s with graph := s.graph.addReachable m }) :
    HierarchySearch.Outcome I E (p.followMethod m d s) := by
  rw [followMethod_eq]
  have hbody := stmt?_of_mem_zipIdx hd
  generalize d.body.zipIdx = l at hbody
  generalize { s with graph := s.graph.addReachable m } = s at hs
  induction l generalizing s with
  | nil => exact hs
  | cons x l ih =>
    obtain ⟨stmt, i⟩ := x
    have hstmt : HierarchySearch.Outcome I E (p.followStmt m s (stmt, i)) := by
      cases stmt with
      | call c => exact hcall s i c hs (hbody _ List.mem_cons_self)
      | _ => exact hs
    rw [List.foldlM_cons]
    cases hx : p.followStmt m s (stmt, i) with
    | ok t =>
      rw [hx] at hstmt
      exact ih (fun y hy => hbody y (List.mem_cons_of_mem _ hy)) t hstmt
    | error e =>
      rw [hx] at hstmt
      exact hstmt

/-- If following the next method keeps a property, a search keeps it to its end. -/
theorem outcome_followCalls (hqueue : ∀ s, I s → ∀ m ∈ s.queue, ∃ d, p.method? m = some d)
    (hmethod : ∀ s m rest d, I s → s.queue.dropWhile (s.graph.reaches ·) = m :: rest →
      p.method? m = some d → HierarchySearch.Outcome I E (p.followMethod m d { s with queue := rest }))
    (rounds : Nat) (hs : I s) :
    (∀ g, p.followCalls rounds s = .ok g → ∃ t, I t ∧ t.graph = g) ∧
      ∀ e, p.followCalls rounds s = .error e → ∃ e', e = .program e' ∧ E e' := by
  induction rounds generalizing s with
  | zero =>
    constructor
    · rintro g ⟨⟩
      exact ⟨s, hs, rfl⟩
    · rintro e ⟨⟩
  | succ n ih =>
    rw [followCalls]
    split
    · constructor
      · rintro g ⟨⟩
        exact ⟨s, hs, rfl⟩
      · rintro e ⟨⟩
    · rename_i m rest hround
      have hnext : s.queue.dropWhile (· ∈ s.graph.reachable) = m :: rest := by
        rw [← CallGraph.dropWhile_reaches, hround]
      obtain ⟨d, hd⟩ := hqueue s hs m (Search.rest_subset_of_round hnext List.mem_cons_self)
      have houtcome := hmethod s m rest d hs hround hd
      rw [hd]
      dsimp only
      cases ht : p.followMethod m d { s with queue := rest } with
      | ok t =>
        rw [ht] at houtcome
        exact ih houtcome
      | error e' =>
        rw [ht] at houtcome
        constructor
        · rintro g ⟨⟩
        · rintro e ⟨⟩
          exact ⟨e', rfl, houtcome⟩

end

/-! ## The finished search -/

/-- What a search of the hierarchy keeps from round to round. -/
structure Following (p : IndexedProgram) (s : HierarchySearch) : Prop where
  search : Search p.methods.size p.MayCall s.graph.reachable s.queue
  /-- Every call in a method met has its targets, each with an edge. -/
  calls : ∀ m ∈ s.graph.reachable, ∀ i c, p.stmt? ⟨m, i⟩ = some (.call c) →
    ∃ ts, p.targets c = .ok ts ∧ ∀ t ∈ ts, s.graph.hasEdge ⟨m, i⟩ t = true
  /-- An edge stands for a call statement and has its kind. -/
  kinds : ∀ e ∈ s.graph.edges, ∃ c, p.stmt? e.site = some (.call c) ∧ e.kind = .ofMode c.mode

/-- A graph that holds the entries, and with a method the targets of all calls in its body. -/
structure HierarchyClosed (p : IndexedProgram) (entries : List MethodId)
    (g : CallGraph Site MethodId) : Prop where
  entries : ∀ m ∈ entries, m ∈ g.reachable
  calls : ∀ site c, p.stmt? site = some (.call c) → site.method ∈ g.reachable →
    ∃ ts, p.targets c = .ok ts ∧ ∀ t ∈ ts, t ∈ g.reachable ∧ ⟨.ofMode c.mode, site, t⟩ ∈ g.edges

/-- The search meets the next method, and goes on. -/
theorem Following.round {rest : List MethodId} (h : p.Following s)
    (hround : s.queue.dropWhile (s.graph.reaches ·) = m :: rest) (hd : p.method? m = some d)
    (hm : p.followMethod m d { s with queue := rest } = .ok t) :
    p.Following t ∧ t.graph.reachable = s.graph.reachable ++ [m] ∧ rest ⊆ t.queue := by
  rw [CallGraph.dropWhile_reaches] at hround
  obtain ⟨hgrows, hfollowed⟩ := followed_of_followMethod hd hm
  have hreachable : t.graph.reachable = s.graph.reachable ++ [m] := by
    rw [hgrows.reachable, CallGraph.addReachable_eq, if_neg (Search.not_met_of_round hround),
      CallGraph.reachable_withReachable]
  have hedges : (s.graph.addReachable m).edges = s.graph.edges := by
    rw [CallGraph.addReachable_eq]
    split <;> rfl
  have hedge : ∀ x m', s.graph.hasEdge x m' = true → t.graph.hasEdge x m' = true := by
    intro x m' hx
    refine hgrows.hasEdge x m' ?_
    rwa [CallGraph.hasEdge_iff, hedges, ← CallGraph.hasEdge_iff]
  refine ⟨⟨?_, ?_, ?_⟩, hreachable, hgrows.queue⟩
  · rw [hreachable]
    refine h.search.round hround (Array.getElem?_eq_some_iff.1 hd).1 hgrows.queue ?_
    rintro callee ⟨i, c, ts, hs, hts, hmem⟩
    obtain ⟨ts', hts', htargets⟩ := hfollowed i c hs
    rw [hts] at hts'
    cases hts'
    exact (htargets callee hmem).1
  · intro m' hm' i c hs
    rw [hreachable] at hm'
    rcases List.mem_append.1 hm' with hm' | hm'
    · obtain ⟨ts, hts, htargets⟩ := h.calls m' hm' i c hs
      exact ⟨ts, hts, fun callee hmem => hedge _ _ (htargets callee hmem)⟩
    · rw [List.mem_singleton.1 hm'] at hs ⊢
      obtain ⟨ts, hts, htargets⟩ := hfollowed i c hs
      exact ⟨ts, hts, fun callee hmem => (htargets callee hmem).2⟩
  · intro e he
    rcases hgrows.edges e he with he | he
    · exact h.kinds e (hedges ▸ he)
    · exact he

/-- A search without anything left to meet is closed. -/
theorem Following.closed (h : p.Following s) (hdone : s.queue.dropWhile (s.graph.reaches ·) = []) :
    p.HierarchyClosed s.queue s.graph := by
  rw [CallGraph.dropWhile_reaches] at hdone
  obtain ⟨hqueue, hnext⟩ := h.search.closed hdone
  refine ⟨fun m hm => hqueue m (Or.inr hm), fun site c hs hm => ?_⟩
  obtain ⟨ts, hts, htargets⟩ := h.calls _ hm _ _ hs
  refine ⟨ts, hts, fun callee hmem => ⟨hnext _ hm _ ⟨site.index, c, ts, hs, hts, hmem⟩, ?_⟩⟩
  obtain ⟨⟨kind, site', callee'⟩, he, hsite, hcallee⟩ :=
    CallGraph.hasEdge_iff.1 (htargets callee hmem)
  obtain rfl : site' = site := hsite
  obtain rfl : callee' = callee := hcallee
  -- the edge between them has the kind of the call, whichever edge came first
  obtain ⟨c', hs', hkind⟩ := h.kinds _ he
  obtain rfl : kind = .ofMode c.mode := by
    have hc : some (Stmt.call c') = some (.call c) := hs'.symm.trans hs
    cases hc
    exact hkind
  exact he

theorem HierarchyClosed.mono {entries entries' : List MethodId} {g : CallGraph Site MethodId}
    (h : p.HierarchyClosed entries g) (hsub : ∀ m ∈ entries', m ∈ entries ∨ m ∈ g.reachable) :
    p.HierarchyClosed entries' g :=
  ⟨fun m hm => (hsub m hm).elim (h.entries m) id, h.calls⟩

/-- The finished graph is closed: there are more rounds than methods that have not been met. -/
theorem closed_followCalls {rounds : Nat} {g : CallGraph Site MethodId} (h : p.Following s)
    (hrounds : p.methods.size < rounds + s.graph.reachable.length)
    (hg : p.followCalls rounds s = .ok g) :
    p.HierarchyClosed (s.graph.reachable ++ s.queue) g := by
  induction rounds generalizing s with
  | zero =>
    have := h.search.length_le
    omega
  | succ n ih =>
    rw [followCalls] at hg
    split at hg
    · rename_i hdone
      cases hg
      refine (h.closed hdone).mono fun m hm => ?_
      exact (List.mem_append.1 hm).symm
    · rename_i m rest hround
      split at hg
      · cases hg
      · rename_i d hd
        obtain ⟨t, ht, hg⟩ := bind_eq_ok_iff.1 hg
        obtain ⟨hfollowing, hreachable, hrest⟩ := h.round hround hd (mapError_eq_ok_iff.1 ht)
        have hlength : p.methods.size < n + t.graph.reachable.length := by
          rw [hreachable, List.length_append, List.length_singleton]
          omega
        rw [CallGraph.dropWhile_reaches] at hround
        refine (ih hfollowing hlength hg).mono fun m' hm' => Or.inl ?_
        rw [hreachable]
        rcases Search.kept_of_round hround (List.mem_append.1 hm') with hm' | hm'
        · exact List.mem_append_left _ hm'
        · exact List.mem_append_right _ (hrest hm')

/-- Adding entries changes nothing else, so at the start of a search there are entries only. -/
theorem exists_foldl_addEntry (entries : List MethodId) (g : CallGraph Site MethodId) :
    ∃ ms, entries.foldl .addEntry g = { g with entries := ms } := by
  induction entries generalizing g with
  | nil => exact ⟨g.entries, rfl⟩
  | cons m entries ih =>
    rw [List.foldl_cons, CallGraph.addEntry]
    split
    · exact ih g
    · exact ih { g with entries := g.entries ++ [m] }

theorem following_start (entries : List MethodId) :
    p.Following ⟨entries.foldl .addEntry ∅, entries⟩ := by
  obtain ⟨ms, hstart⟩ := exists_foldl_addEntry entries ∅
  rw [hstart]
  exact ⟨.start, nofun, nofun⟩

/-- What a call graph of the hierarchy holds: the entries, and with a method the targets of all calls
in its body. -/
theorem closed_graphFrom {entries : List MethodId} {g : CallGraph Site MethodId}
    (hg : p.graphFrom entries = .ok g) : p.HierarchyClosed entries g := by
  rw [graphFrom] at hg
  split at hg
  · cases hg
  · simp only [bind_eq_ok_iff] at hg
    obtain ⟨_, _, _, _, hg⟩ := hg
    refine (closed_followCalls (following_start _) (by omega) hg).mono fun m hm => Or.inl ?_
    exact List.mem_append_right _ hm

theorem closed_hierarchyGraph {more : List MethodId} {g : CallGraph Site MethodId}
    (hg : p.hierarchyGraph more = .ok g) : p.HierarchyClosed (p.entry.toList ++ more) g :=
  (closed_graphFrom hg).mono fun _ hm => Or.inl (List.mem_eraseDups.2 hm)

end IndexedProgram

end PointsTo
