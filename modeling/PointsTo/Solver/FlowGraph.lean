import PointsTo.Solver.Element

/-!
# The pointer flow graph

An edge from `p` to `q` says that whatever `p` points to, `q` points to as well. The graph keeps the
targets of each source in the order in which they were added, each once, and lists its edges by source
first. `mem_edges_iff` ties the listing to the targets.
-/

namespace PointsTo

/-- A graph over pointer ids. -/
structure FlowGraph where
  targets : Array (List PointerId)
deriving DecidableEq

namespace FlowGraph

/-- The graph without edges. -/
def empty : FlowGraph := ⟨#[]⟩

instance : EmptyCollection FlowGraph := ⟨empty⟩

instance : Inhabited FlowGraph := ⟨empty⟩

/-- The targets of a source, in the order in which they were added. -/
def successors (g : FlowGraph) (source : PointerId) : List PointerId := g.targets[source]?.getD []

/-- Is there an edge? -/
def hasEdge (g : FlowGraph) (source target : PointerId) : Bool :=
  (g.successors source).contains target

/-- An array with at least `n` entries, filled up with empty lists. -/
def extend (targets : Array (List PointerId)) (n : Nat) : Array (List PointerId) :=
  targets ++ Array.replicate (n - targets.size) []

/-- The graph with an edge. -/
def addEdge (g : FlowGraph) (source target : PointerId) : FlowGraph :=
  if g.hasEdge source target then g
  else ⟨(extend g.targets (source + 1)).setIfInBounds source (g.successors source ++ [target])⟩

/-- All edges, by source, then in the order in which they were added. -/
def edges (g : FlowGraph) : List (PointerId × PointerId) :=
  g.targets.toList.zipIdx.flatMap fun (targets, source) => targets.map (source, ·)

/-- The number of edges. -/
def edgeCount (g : FlowGraph) : Nat := g.edges.length

@[simp] theorem successors_empty {s : PointerId} : (∅ : FlowGraph).successors s = [] := rfl

theorem hasEdge_iff {g : FlowGraph} {s t : PointerId} :
    g.hasEdge s t = true ↔ t ∈ g.successors s := by
  simp [hasEdge]

theorem size_extend {targets : Array (List PointerId)} {n : Nat} :
    (extend targets n).size = targets.size + (n - targets.size) := by
  simp [extend]

theorem getElem?_extend {targets : Array (List PointerId)} {n i : Nat} :
    (extend targets n)[i]?.getD [] = targets[i]?.getD [] := by
  simp only [extend, Array.getElem?_append]
  split
  · rfl
  · rename_i hi
    rw [Array.getElem?_eq_none (Nat.le_of_not_lt hi), Array.getElem?_replicate]
    split <;> rfl

/-- Adding an edge adds its target, at the end, to the targets of its source. -/
theorem successors_addEdge {g : FlowGraph} {s t p : Nat} :
    (g.addEdge s t).successors p =
      if p = s ∧ t ∉ g.successors s then g.successors s ++ [t] else g.successors p := by
  unfold addEdge
  by_cases h : t ∈ g.successors s
  · rw [if_pos (hasEdge_iff.2 h), if_neg (fun hc => hc.2 h)]
  · rw [if_neg (fun hc => h (hasEdge_iff.1 hc))]
    have hs : s < (extend g.targets (s + 1)).size := by rw [size_extend]; omega
    by_cases hp : p = s
    · subst hp
      rw [if_pos ⟨rfl, h⟩]
      show ((extend g.targets (p + 1)).setIfInBounds p _)[p]?.getD [] = _
      rw [Array.getElem?_setIfInBounds, if_pos rfl, if_pos hs]
      rfl
    · rw [if_neg (fun hc => hp hc.1)]
      show ((extend g.targets (s + 1)).setIfInBounds s _)[p]?.getD [] = _
      rw [Array.getElem?_setIfInBounds, if_neg (Ne.symm hp), getElem?_extend]
      rfl

/-- An edge of the graph with one more edge is that one or was there before. -/
theorem of_mem_successors_addEdge {g : FlowGraph} {s t p q : PointerId}
    (h : q ∈ (g.addEdge s t).successors p) : q ∈ g.successors p ∨ p = s ∧ q = t := by
  rw [successors_addEdge] at h
  split at h
  · rename_i hp
    rw [List.mem_append, List.mem_singleton] at h
    rcases h with h | h
    · exact Or.inl (by rwa [hp.1])
    · exact Or.inr ⟨hp.1, h⟩
  · exact Or.inl h

theorem mem_successors_addEdge {g : FlowGraph} {s t : PointerId} :
    t ∈ (g.addEdge s t).successors s := by
  by_cases h : t ∈ g.successors s
  · rw [successors_addEdge, if_neg fun hc => hc.2 h]
    exact h
  · rw [successors_addEdge, if_pos ⟨rfl, h⟩]
    exact List.mem_append_right _ (List.mem_singleton.2 rfl)

theorem successors_prefix_addEdge (g : FlowGraph) (s t p : PointerId) :
    g.successors p <+: (g.addEdge s t).successors p := by
  rw [successors_addEdge]
  split
  · rename_i hp
    rw [hp.1]
    exact List.prefix_append _ _
  · exact List.prefix_rfl

/-- An edge that is there is not added again. -/
theorem nodup_successors_addEdge {g : FlowGraph} (hg : ∀ p, (g.successors p).Nodup)
    (s t p : PointerId) : ((g.addEdge s t).successors p).Nodup := by
  rw [successors_addEdge]
  split
  · rename_i hp
    refine List.nodup_append.2 ⟨hg s, List.pairwise_singleton _ _, ?_⟩
    rintro a ha b hb rfl
    rw [List.mem_singleton.1 hb] at ha
    exact hp.2 ha
  · exact hg p

theorem mem_edges_iff {g : FlowGraph} {s t : PointerId} :
    (s, t) ∈ g.edges ↔ t ∈ g.successors s := by
  simp only [edges, successors, List.mem_flatMap, List.mem_map, Prod.mk.injEq, Prod.exists]
  constructor
  · rintro ⟨ts, i, hts, u, hu, rfl, rfl⟩
    have := List.mem_zipIdx_iff_getElem?.1 hts
    simp only [Array.getElem?_toList] at this
    rw [this]
    exact hu
  · intro ht
    cases hts : g.targets[s]? with
    | none => simp [hts] at ht
    | some ts =>
      rw [hts] at ht
      exact ⟨ts, s, List.mem_zipIdx_iff_getElem?.2 (by simpa using hts), t, ht, rfl, rfl⟩

end FlowGraph

end PointsTo
