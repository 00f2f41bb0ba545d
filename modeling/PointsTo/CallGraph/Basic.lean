import PointsTo.Collection.Table
import PointsTo.Program.Basic

/-!
# Call graphs

A call graph over call sites `S` and methods `M`: entry methods, reachable methods and call edges,
each listed in the order in which they were found and none listed twice. The sites and methods may be
those of the program or qualified by contexts.

Between one site and one callee there is at most one edge; the kind of an edge is information only,
and the first one found stays.

Look-ups go by tables beside the lists. That these hold what the lists hold belongs to the type.
-/

namespace PointsTo

/-- What kind of call an edge stands for. -/
inductive EdgeKind where
  | static
  | virtual
  | special
  /-- A call through an interface. -/
  | interface
  | dynamic
  /-- Any other transfer of control. -/
  | other
deriving DecidableEq, Inhabited

namespace EdgeKind

/-- All kinds, in their order. -/
def all : List EdgeKind := [static, virtual, special, interface, dynamic, other]

/-- The name of the kind. -/
def name : EdgeKind → String
  | static => "static"
  | virtual => "virtual"
  | special => "special"
  | interface => "interface"
  | dynamic => "dynamic"
  | other => "other"

/-- The position of the kind in their order. -/
def rank : EdgeKind → Nat
  | static => 0
  | virtual => 1
  | special => 2
  | interface => 3
  | dynamic => 4
  | other => 5

/-- The kind of the edges of a call. -/
def ofMode : CallMode → EdgeKind
  | .static => static
  | .special => special
  | .virtual => virtual
  | .interface => interface
  | .dynamic => dynamic

end EdgeKind

/-- A call edge. -/
structure CallEdge (S M : Type) where
  kind : EdgeKind
  site : S
  callee : M
deriving DecidableEq

/-- A call graph; every list is in the order of discovery. The tables answer the look-ups. -/
structure CallGraph (S M : Type) [DecidableEq S] [DecidableEq M] where
  entries : List M
  reachable : List M
  edges : List (CallEdge S M)
  /-- The reachable methods, in no particular order. -/
  reached : List M
  /-- The ends of the edges, in no particular order. -/
  linked : List (S × M)
  /-- The callees, by site. -/
  calleesBySite : Table S (List M)
  /-- The sites, by callee. -/
  sitesByCallee : Table M (List S)
  mem_reached : ∀ m, m ∈ reached ↔ m ∈ reachable
  mem_linked : ∀ s m, (s, m) ∈ linked ↔ ∃ e ∈ edges, e.site = s ∧ e.callee = m
  calleesBySite_listAt : ∀ s, calleesBySite.listAt s = (edges.filter (·.site = s)).map (·.callee)
  sitesByCallee_listAt : ∀ m, sitesByCallee.listAt m = (edges.filter (·.callee = m)).map (·.site)

namespace CallGraph

variable {S M : Type} [DecidableEq S] [DecidableEq M]

/-- The graph without methods and edges. -/
def empty : CallGraph S M where
  entries := []
  reachable := []
  edges := []
  reached := []
  linked := []
  calleesBySite := ∅
  sitesByCallee := ∅
  mem_reached _ := Iff.rfl
  mem_linked _ _ := iff_of_false nofun nofun
  calleesBySite_listAt _ := rfl
  sitesByCallee_listAt _ := rfl

instance : EmptyCollection (CallGraph S M) := ⟨empty⟩

instance : Inhabited (CallGraph S M) := ⟨empty⟩

/-- The graph with `m` among its entries. -/
def addEntry (g : CallGraph S M) (m : M) : CallGraph S M :=
  if m ∈ g.entries then g else { g with entries := g.entries ++ [m] }

/-- Is `m` reachable? -/
def reaches (g : CallGraph S M) (m : M) : Bool := g.reached.any (· = m)

/-- The graph with one more reachable method. -/
def withReachable (g : CallGraph S M) (m : M) : CallGraph S M :=
  { g with
    reachable := g.reachable ++ [m]
    reached := m :: g.reached
    mem_reached := fun n => by
      rw [List.mem_cons, g.mem_reached, List.mem_append, List.mem_singleton, or_comm] }

/-- The graph with `m` reachable, and whether that is new. -/
def reach (g : CallGraph S M) (m : M) : Bool × CallGraph S M :=
  if g.reaches m then (false, g) else (true, g.withReachable m)

/-- The graph with `m` reachable. -/
def addReachable (g : CallGraph S M) (m : M) : CallGraph S M := (g.reach m).2

/-- Is there an edge from `s` to `m`? -/
def hasEdge (g : CallGraph S M) (s : S) (m : M) : Bool := g.linked.any fun e => e.1 = s && e.2 = m

/-- The graph with one more edge. -/
def withEdge (g : CallGraph S M) (e : CallEdge S M) : CallGraph S M :=
  { g with
    edges := g.edges ++ [e]
    linked := (e.site, e.callee) :: g.linked
    calleesBySite := g.calleesBySite.append e.site e.callee
    sitesByCallee := g.sitesByCallee.append e.callee e.site
    mem_linked := fun s m => by
      rw [List.mem_cons, g.mem_linked, Prod.mk.injEq, or_comm]
      simp only [List.mem_append, List.mem_singleton, or_and_right, exists_or, exists_eq_left,
        eq_comm (a := s), eq_comm (a := m)]
    calleesBySite_listAt := fun s => by
      rw [Table.listAt_append, g.calleesBySite_listAt, g.calleesBySite_listAt]
      by_cases h : s = e.site
      · simp [h]
      · simp [h, Ne.symm h]
    sitesByCallee_listAt := fun m => by
      rw [Table.listAt_append, g.sitesByCallee_listAt, g.sitesByCallee_listAt]
      by_cases h : m = e.callee
      · simp [h]
      · simp [h, Ne.symm h] }

/-- The graph with the edge `e`, unless its site and callee have one already, and whether it is new. -/
def link (g : CallGraph S M) (e : CallEdge S M) : Bool × CallGraph S M :=
  if g.hasEdge e.site e.callee then (false, g) else (true, g.withEdge e)

/-- The graph with the edge `e`, unless its site and callee have one already. -/
def addEdge (g : CallGraph S M) (e : CallEdge S M) : CallGraph S M := (g.link e).2

/-- The methods that `s` calls. -/
def callees (g : CallGraph S M) (s : S) : List M := g.calleesBySite.listAt s

/-- The sites that call `m`. -/
def callers (g : CallGraph S M) (m : M) : List S := g.sitesByCallee.listAt m

/-! ## What the look-ups find -/

variable {g : CallGraph S M}

theorem reaches_iff {m : M} : g.reaches m = true ↔ m ∈ g.reachable := by
  rw [← g.mem_reached]
  simp [reaches]

theorem dropWhile_reaches (ms : List M) : ms.dropWhile (g.reaches ·) = ms.dropWhile (· ∈ g.reachable) := by
  congr 1
  funext m
  rw [Bool.eq_iff_iff, reaches_iff, decide_eq_true_eq]

theorem hasEdge_iff {s : S} {m : M} :
    g.hasEdge s m = true ↔ ∃ e ∈ g.edges, e.site = s ∧ e.callee = m := by
  rw [← g.mem_linked]
  simp [hasEdge]

theorem callees_eq (s : S) : g.callees s = (g.edges.filter (·.site = s)).map (·.callee) :=
  g.calleesBySite_listAt s

theorem callers_eq (m : M) : g.callers m = (g.edges.filter (·.callee = m)).map (·.site) :=
  g.sitesByCallee_listAt m

/-! ## What a change adds -/

@[simp] theorem entries_withReachable (m : M) : (g.withReachable m).entries = g.entries := rfl

@[simp] theorem reachable_withReachable (m : M) :
    (g.withReachable m).reachable = g.reachable ++ [m] := rfl

@[simp] theorem edges_withReachable (m : M) : (g.withReachable m).edges = g.edges := rfl

@[simp] theorem entries_withEdge (e : CallEdge S M) : (g.withEdge e).entries = g.entries := rfl

@[simp] theorem reachable_withEdge (e : CallEdge S M) : (g.withEdge e).reachable = g.reachable := rfl

@[simp] theorem edges_withEdge (e : CallEdge S M) : (g.withEdge e).edges = g.edges ++ [e] := rfl

theorem addReachable_eq (g : CallGraph S M) (m : M) :
    g.addReachable m = if m ∈ g.reachable then g else g.withReachable m := by
  simp only [addReachable, reach, reaches_iff]
  split <;> rfl

theorem addEdge_eq (g : CallGraph S M) (e : CallEdge S M) :
    g.addEdge e = if g.hasEdge e.site e.callee then g else g.withEdge e := by
  rw [addEdge, link]
  split <;> rfl

end CallGraph

end PointsTo
