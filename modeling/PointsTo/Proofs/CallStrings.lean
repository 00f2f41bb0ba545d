import Mathlib.Data.List.Chain
import PointsTo.Proofs.ContextSuffix
import PointsTo.Proofs.Locality
import PointsTo.Proofs.Projection
import PointsTo.Proofs.Refinement

/-!
# Call strings are call paths

A call site context is put together one site at a time and cut each time, and many calls lead into one
context. It still is what it is meant to be: the end of a path through the call graph that starts at an
entry. The full path is the invariant (`OnPath`), for a call makes it longer at its end and the cut can
wait, as a cut before another cut makes no difference (`Context.append_truncate`). What can be seen of the
path in its last `k` sites is then a fact about paths alone (`CallPath.callString`).
-/

namespace PointsTo

section

variable {entries : List MethodId} {calls : Site → MethodId → Prop} {path : List Site} {m : MethodId}

/-- Calls lead from an entry through the sites of a list, one after the other, to a method. -/
inductive CallPath (entries : List MethodId) (calls : Site → MethodId → Prop) :
    List Site → MethodId → Prop where
  | entry {m : MethodId} (h : m ∈ entries) : CallPath entries calls [] m
  | call {path : List Site} {site : Site} {m : MethodId} (h : CallPath entries calls path site.method)
      (hc : calls site m) : CallPath entries calls (path ++ [site]) m

/-- At most `k` sites that follow each other up to a method. The first of them stands in an entry, unless
there are as many as there can be. -/
structure CallString (entries : List MethodId) (calls : Site → MethodId → Prop) (k : Nat)
    (sites : List Site) (m : MethodId) : Prop where
  length_le : sites.length ≤ k
  last : ∀ site ∈ sites.getLast?, calls site m
  consecutive : sites.IsChain fun site next => calls site next.method
  first : sites.length < k → (sites.head?.map (·.method)).getD m ∈ entries

namespace CallPath

theorem last (h : CallPath entries calls path m) : ∀ site ∈ path.getLast?, calls site m := by
  intro site hsite
  cases h with
  | entry => cases hsite
  | call _ hc =>
    rw [List.getLast?_concat] at hsite
    cases hsite
    exact hc

theorem consecutive (h : CallPath entries calls path m) :
    path.IsChain fun site next => calls site next.method := by
  induction h with
  | entry => exact .nil
  | @call path site m h hc ih =>
    refine List.isChain_append.2 ⟨ih, .singleton site, ?_⟩
    intro before hbefore next hnext
    cases hnext
    exact h.last before hbefore

theorem first (h : CallPath entries calls path m) :
    (path.head?.map (·.method)).getD m ∈ entries := by
  induction h with
  | entry h => exact h
  | @call path site m _ _ ih =>
    cases path with
    | nil => exact ih
    | cons start path => exact ih

/-- What the last sites of a path are. -/
theorem callString (h : CallPath entries calls path m) (k : Nat) :
    CallString entries calls k (Context.lastOf k path) m where
  length_le := Context.length_lastOf_le k path
  last := by
    intro site hsite
    rw [Context.lastOf, List.getLast?_drop] at hsite
    split at hsite
    · cases hsite
    · exact h.last site hsite
  consecutive := h.consecutive.drop _
  first := by
    intro hlt
    rw [Context.lastOf, List.length_drop] at hlt
    have hall : Context.lastOf k path = path := by
      rw [Context.lastOf, Nat.sub_eq_zero_of_le (by omega), List.drop_zero]
    rw [hall]
    exact h.first

end CallPath

end

/-! ## Contexts along a path -/

/-- The context of all the sites in a list. -/
def Context.ofSites (sites : List Site) : Context := ⟨sites.map .callSite⟩

theorem Context.elements_truncate_ofSites (k : Nat) (sites : List Site) :
    ((ofSites sites).truncate k).elements = (lastOf k sites).map .callSite :=
  (map_lastOf ContextElement.callSite k sites).symm

/-- One more call at the end of a path: its site is put behind what was kept of the path. -/
theorem Context.append_callSite (k : Nat) (path : List Site) (site : Site) :
    ((ofSites path).truncate k).append (.callSite site) k = (ofSites (path ++ [site])).truncate k := by
  rw [append_truncate, Nat.min_eq_left (Nat.le_succ k), append, truncate, ofSites, ofSites, List.map_append]
  rfl

/-- A path of calls leads to the method, and its last `k` sites are the context. -/
def OnPath (entries : List MethodId) (calls : Site → MethodId → Prop) (k : Nat) (m : MethodInstance) :
    Prop :=
  ∃ path, CallPath entries calls path m.method ∧ m.context = (Context.ofSites path).truncate k

theorem OnPath.call {entries : List MethodId} {calls : Site → MethodId → Prop} {k : Nat} {c : Context}
    {site : Site} {m : MethodId} (h : OnPath entries calls k ⟨c, site.method⟩) (hc : calls site m) :
    OnPath entries calls k ⟨c.append (.callSite site) k, m⟩ := by
  obtain ⟨path, hpath, rfl⟩ := h
  exact ⟨path ++ [site], hpath.call hc, Context.append_callSite k path site⟩

open Solver

/-- Under call site sensitivity every context of a reachable method is the end of a path of calls from an
entry to that method, through the call graph that the run computes; it has at most `k` elements, all of
them call sites, and if it has fewer it is the whole path. Every object stands under the last `heapK`
elements of a context under which the method that allocates it is reachable. -/
theorem call_paths_of_solve {p : Program} (hp : p.validate = .ok ()) (k heapK : Nat)
    (order : WorklistOrder) (entries : List MethodId) (n : Nat) (s : State)
    (hs : solve (p.setup (.callSite k heapK)) n entries (.initial order) = .ok () s) :
    let calls site m := m ∈ ((p.setup (.callSite k heapK)).solution s).callees site
    (∀ c m, s.Found (.reachable ⟨c, m⟩) → ∃ path, CallPath entries calls path m ∧
      c.elements = (Context.lastOf k path).map .callSite ∧
      CallString entries calls k (Context.lastOf k path) m) ∧
    ∀ o, s.Found (.object o) → ∃ a c, (Heap.ofProgram p).object? o.object = some a ∧
      s.Found (.reachable ⟨c, a.site.method⟩) ∧ o.heapContext = c.truncate heapK := by
  intro calls
  have hset : (p.setup (.callSite k heapK)).WellFormed := Program.wellFormed_setup hp
  obtain ⟨hsound, -, hcomplete⟩ := outcome_of_solve hset hs
  have hcalls : ∀ kind c site c' m, s.Found (.call kind ⟨c, site⟩ ⟨c', m⟩) → calls site m :=
    fun kind c site c' m hcall =>
      (Solution.mem_callees_iff (s := (p.setup (.callSite k heapK)).solution s) hsound.wellFormed).2
        ⟨kind, c, c', hcall⟩
  constructor
  · intro c m hreach
    have hlocated : Closed (p.setup (.callSite k heapK)) entries
        fun f => s.Found f ∧ p.Located (OnPath entries calls k) f := by
      refine closed_located hp hcomplete.closed ?_ ?_
      · intro m hm
        exact ⟨[], .entry hm, (Context.truncate_empty k).symm⟩
      · intro kind c site receiver m hpath hcall
        exact hpath.call (hcalls kind c site _ m hcall)
    obtain ⟨-, path, hpath, rfl⟩ := closed_of_found hset hlocated hs hreach
    exact ⟨path, hpath, Context.elements_truncate_ofSites k path, hpath.callString k⟩
  · intro o ho
    have hplaced := closed_placed hp hcomplete.closed
    exact (closed_of_found hset hplaced hs ho).2

/-- The second method is called once from the first and then again and again by itself. Two sites are
kept, so that its contexts are the only path with one call, that with two, and what is left of all others. -/
theorem call_paths_of_solve_recursive : Sample.recursive.validate = .ok () ∧ ∃ s,
    solve (Sample.recursive.setup (.callSite 2 1)) 60 [0] (.initial .fifo) = .ok () s ∧
    (((Sample.recursive.setup (.callSite 2 1)).solution s).contextsOf 1).map (·.elements) =
      [[.callSite ⟨0, 1⟩], [.callSite ⟨0, 1⟩, .callSite ⟨1, 1⟩], [.callSite ⟨1, 1⟩, .callSite ⟨1, 1⟩]] ∧
    ∀ c, s.Found (.reachable ⟨c, 1⟩) → ∃ path,
      CallPath [0] (fun site m => m ∈ ((Sample.recursive.setup (.callSite 2 1)).solution s).callees site)
        path 1 ∧ c.elements = (Context.lastOf 2 path).map .callSite := by
  obtain ⟨⟨⟩, s, hs, hcontexts⟩ := Ends.exists_ok (by decide +kernel :
    Ends (solve (Sample.recursive.setup (.callSite 2 1)) 60 [0]) (.initial .fifo)
      (fun _ s => (((Sample.recursive.setup (.callSite 2 1)).solution s).contextsOf 1).map (·.elements) =
        [[.callSite ⟨0, 1⟩], [.callSite ⟨0, 1⟩, .callSite ⟨1, 1⟩],
          [.callSite ⟨1, 1⟩, .callSite ⟨1, 1⟩]])
      fun _ _ => False)
  refine ⟨Sample.validate_recursive, s, hs, hcontexts, ?_⟩
  intro c hreach
  obtain ⟨path, hpath, hc, -⟩ :=
    (call_paths_of_solve Sample.validate_recursive 2 1 .fifo [0] 60 s hs).1 c 1 hreach
  exact ⟨path, hpath, hc⟩

end PointsTo
