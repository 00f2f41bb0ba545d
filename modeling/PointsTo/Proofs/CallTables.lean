import Mathlib.Data.List.Induction
import PointsTo.Proofs.HierarchyClosure

/-!
# The tables of a call graph agree

A call graph starts empty, and entries, reachable methods and edges are added in any order. Each of its
lists then holds what was added to it, at its first occurrence (`entries_after`, `reachable_after`,
`ends_after`); of the edges with the same ends that is the first one, whatever its kind
(`find?_of_mem_edges`). The look-ups, which go by tables of their own, answer as the lists do
(`tables_agree`).
-/

namespace PointsTo

variable {S M : Type}

/-- The site and the callee of an edge. -/
def CallEdge.ends (e : CallEdge S M) : S × M := (e.site, e.callee)

/-- A call that may change a call graph. -/
inductive GraphCall (S M : Type) where
  | entry (m : M)
  | reachable (m : M)
  | edge (e : CallEdge S M)

namespace GraphCall

/-- The entry that is added. -/
def entryMethod? : GraphCall S M → Option M
  | entry m => some m
  | _ => none

/-- The reachable method that is added. -/
def reachableMethod? : GraphCall S M → Option M
  | reachable m => some m
  | _ => none

/-- The edge that is added. -/
def edge? : GraphCall S M → Option (CallEdge S M)
  | edge e => some e
  | _ => none

end GraphCall

namespace CallGraph

variable [DecidableEq S] [DecidableEq M] {g : CallGraph S M}

/-- The graph after a call. -/
def perform (g : CallGraph S M) : GraphCall S M → CallGraph S M
  | .entry m => g.addEntry m
  | .reachable m => (g.reach m).2
  | .edge e => (g.link e).2

/-- The graph after calls, from the empty one. -/
def after (cs : List (GraphCall S M)) : CallGraph S M := cs.foldl perform ∅

theorem after_concat (cs : List (GraphCall S M)) (c : GraphCall S M) :
    after (cs ++ [c]) = (after cs).perform c := by
  rw [after, List.foldl_append]
  rfl

/-! ## What one call does -/

/-- A call adds what is not listed yet, and does nothing else. -/
theorem perform_eq (g : CallGraph S M) (c : GraphCall S M) : g.perform c = match c with
    | .entry m => if m ∈ g.entries then g else { g with entries := g.entries ++ [m] }
    | .reachable m => if m ∈ g.reachable then g else g.withReachable m
    | .edge e => if e.ends ∈ g.ends then g else g.withEdge e := by
  cases c with
  | entry m => rfl
  | reachable m => exact addReachable_eq g m
  | edge e =>
    refine (addEdge_eq g e).trans ?_
    simp only [← mem_ends_iff]
    rfl

theorem entries_perform (g : CallGraph S M) (c : GraphCall S M) :
    (g.perform c).entries = c.entryMethod?.elim g.entries (insertNew g.entries) := by
  rw [perform_eq]
  cases c <;>
    (simp only [GraphCall.entryMethod?, Option.elim_none, Option.elim_some, insertNew]; split <;> rfl)

theorem reachable_perform (g : CallGraph S M) (c : GraphCall S M) :
    (g.perform c).reachable = c.reachableMethod?.elim g.reachable (insertNew g.reachable) := by
  rw [perform_eq]
  cases c <;>
    (simp only [GraphCall.reachableMethod?, Option.elim_none, Option.elim_some, insertNew]; split <;> rfl)

theorem edges_perform (g : CallGraph S M) (c : GraphCall S M) : (g.perform c).edges =
    c.edge?.elim g.edges fun e => if e.ends ∈ g.ends then g.edges else g.edges ++ [e] := by
  rw [perform_eq]
  cases c <;> (simp only [GraphCall.edge?, Option.elim_none, Option.elim_some]; split <;> rfl)

theorem ends_perform (g : CallGraph S M) (c : GraphCall S M) :
    (g.perform c).ends = (c.edge?.map CallEdge.ends).elim g.ends (insertNew g.ends) := by
  cases c with
  | edge e => exact ends_addEdge e
  | _ => exact congrArg (List.map CallEdge.ends) (edges_perform g _)

/-- What reports a change has changed the graph, and what reports none has not. -/
theorem reach_fst_iff (g : CallGraph S M) (m : M) : (g.reach m).1 = true ↔ (g.reach m).2 ≠ g := by
  unfold reach
  split
  · simp
  · refine iff_of_true rfl fun h => ?_
    have hlength := congrArg (fun g => g.reachable.length) h
    simp at hlength

theorem link_fst_iff (g : CallGraph S M) (e : CallEdge S M) :
    (g.link e).1 = true ↔ (g.link e).2 ≠ g := by
  unfold link
  split
  · simp
  · refine iff_of_true rfl fun h => ?_
    have hlength := congrArg (fun g => g.edges.length) h
    simp at hlength

/-! ## What any calls do -/

variable (cs : List (GraphCall S M))

theorem entries_after : (after cs).entries = (cs.filterMap (·.entryMethod?)).eraseDups :=
  eraseDups_of_steps CallGraph.entries entries_perform [] rfl cs

theorem reachable_after : (after cs).reachable = (cs.filterMap (·.reachableMethod?)).eraseDups :=
  eraseDups_of_steps CallGraph.reachable reachable_perform [] rfl cs

theorem ends_after : (after cs).ends = ((cs.filterMap (·.edge?)).map CallEdge.ends).eraseDups := by
  rw [List.map_filterMap]
  exact eraseDups_of_steps ends ends_perform [] rfl cs

variable {cs}

/-- The edge that is listed is the first one that was added with its ends. -/
theorem find?_of_mem_edges {e : CallEdge S M} (he : e ∈ (after cs).edges) :
    (cs.filterMap (·.edge?)).find? (·.ends = e.ends) = some e := by
  induction cs using List.reverseRecOn with
  | nil => exact absurd he List.not_mem_nil
  | append_singleton cs c ih =>
    -- either the last call finds `e` there, or it adds `e` and no edge has its ends yet
    have hadded : e ∈ (after cs).edges ∨ c.edge? = some e ∧ e.ends ∉ (after cs).ends := by
      rw [after_concat, edges_perform] at he
      cases hc : c.edge? with
      | none =>
        rw [hc] at he
        exact Or.inl he
      | some d =>
        rw [hc, Option.elim_some] at he
        split at he
        · exact Or.inl he
        · rename_i hnew
          rcases List.mem_append.1 he with he | he
          · exact Or.inl he
          · obtain rfl := List.mem_singleton.1 he
            exact Or.inr ⟨rfl, hnew⟩
    rw [List.filterMap_append, List.find?_append]
    rcases hadded with he | ⟨hc, hnew⟩
    · rw [ih he, Option.some_or]
    · have hnone : (cs.filterMap (·.edge?)).find? (·.ends = e.ends) = none := by
        refine List.find?_eq_none.2 fun d hd hends => hnew ?_
        rw [ends_after, List.mem_eraseDups]
        exact List.mem_map.2 ⟨d, hd, of_decide_eq_true hends⟩
      rw [hnone, Option.none_or, List.filterMap_cons_some hc]
      exact List.find?_cons_of_pos (decide_eq_true rfl)

/-- After any calls, the lists hold what the calls have added, each at its first occurrence: entries,
reachable methods, and edges by their ends, with the edge that came first. No list has a repetition, the
look-ups find what is listed, in the order of the lists, and a further call reports a change exactly if it
makes one. -/
theorem tables_agree (cs : List (GraphCall S M)) (s : S) (m : M) (e : CallEdge S M) :
    ((after cs).ends = ((cs.filterMap (·.edge?)).map CallEdge.ends).eraseDups ∧ (after cs).ends.Nodup ∧
      ∀ d ∈ (after cs).edges, (cs.filterMap (·.edge?)).find? (·.ends = d.ends) = some d) ∧
    ((after cs).hasEdge s m = true ↔ ∃ d ∈ (after cs).edges, d.site = s ∧ d.callee = m) ∧
    (after cs).callees s = ((after cs).edges.filter (·.site = s)).map (·.callee) ∧
    (after cs).callers m = ((after cs).edges.filter (·.callee = m)).map (·.site) ∧
    ((after cs).reaches m = true ↔ m ∈ (after cs).reachable) ∧
    ((after cs).reachable = (cs.filterMap (·.reachableMethod?)).eraseDups ∧ (after cs).reachable.Nodup) ∧
    ((after cs).entries = (cs.filterMap (·.entryMethod?)).eraseDups ∧ (after cs).entries.Nodup) ∧
    (((after cs).reach m).1 = true ↔ ((after cs).reach m).2 ≠ after cs) ∧
    (((after cs).link e).1 = true ↔ ((after cs).link e).2 ≠ after cs) := by
  refine ⟨⟨ends_after cs, ?_, fun d hd => find?_of_mem_edges hd⟩, hasEdge_iff, callees_eq s, callers_eq m,
    reaches_iff, ⟨reachable_after cs, ?_⟩, ⟨entries_after cs, ?_⟩, reach_fst_iff _ m, link_fst_iff _ e⟩
  · rw [ends_after]
    exact nodup_eraseDups _
  · rw [reachable_after]
    exact nodup_eraseDups _
  · rw [entries_after]
    exact nodup_eraseDups _

/-- The kind of an edge that was there stays, and its callers and callees are listed once. -/
example :
    let g : CallGraph Nat Nat :=
      after [.edge ⟨.virtual, 1, 10⟩, .edge ⟨.other, 1, 10⟩, .edge ⟨.virtual, 1, 11⟩, .edge ⟨.static, 2, 10⟩]
    (g.edges.map (·.kind), g.callees 1, g.callers 10, g.callees 3) =
      ([.virtual, .virtual, .static], [10, 11], [1, 2], []) := by
  decide

end CallGraph

end PointsTo
