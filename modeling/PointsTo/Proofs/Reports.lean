import PointsTo.Collection.Distinct
import PointsTo.Proofs.HierarchyBound
import PointsTo.Proofs.Naming
import PointsTo.Proofs.Tables

/-!
# What a report by name keeps

The tables of a `Summary` have one entry for each name, so they keep everything exactly if no two places
that point to something share a name (`summary_keeps`). In a program that is well named, variables
never do, and heap places do exactly if they are alike: fields of one name that one object has from two
classes, or that one class declares twice. Such programs pass the check, and their reports lose a place
(`summary_loses_shadowed_field`).
-/

namespace PointsTo

/-! ## Places that a program has -/

/-- The places of the fact are made of what the program and the heap have. -/
def Fact.In (p : Program) (h : Heap) : Fact → Prop
  | location l => l.place.In p h
  | pointsTo l o => l.place.In p h ∧ ∃ a, h.object? o.object = some a
  | flow l l' => l.place.In p h ∧ l'.place.In p h
  | _ => True

namespace Program

variable {p : Program} {h : Heap} {v : VarId}

theorem in_of_mentioned (hp : p.validate = .ok ()) {m : MethodId} {d : MethodDecl}
    (hm : p.method? m = some d) (hv : v ∈ mentionedVars d) : (Place.var v).In p h := by
  obtain ⟨x, hx, -⟩ := var_of_mentioned hp hm hv
  exact ⟨x, hx⟩

theorem in_of_stmt (hp : p.validate = .ok ()) {site : Site} {stmt : Stmt}
    (hs : p.stmt? site = some stmt) (hv : v ∈ stmt.vars) : (Place.var v).In p h := by
  obtain ⟨x, hx, -⟩ := var_of_stmt hp hs hv
  exact ⟨x, hx⟩

theorem field_of_require {f : FieldId} {e : ProgramError}
    (hf : require (f < p.fields.size) e = .ok ()) : ∃ d, p.field? f = some d := by
  rw [require_eq_ok_iff, decide_eq_true_eq] at hf
  exact ⟨_, Array.getElem?_eq_getElem hf⟩

end Program

section

open Program

variable {setup : Setup} (hset : setup.WellFormed) {site : Site} {stmt : Stmt} {f : Fact}

include hset

/-- What a statement does is about what the program has. -/
theorem in_of_effect {m : MethodInstance} (hs : setup.program.stmt? site = some stmt)
    (h : Effect setup m site stmt f) : f.In setup.program.toProgram setup.heap := by
  obtain ⟨d, -, hcheck⟩ := checkStmt_of_validate hset.valid hs
  cases h with
  | new ha =>
    rw [hset.heap] at ha
    obtain ⟨-, ha⟩ := Heap.object?_of_objectAt? hset.valid ha
    exact ⟨in_of_stmt hset.valid hs (by simp [Stmt.vars]), _, hset.heap ▸ ha⟩
  | copy =>
    exact ⟨in_of_stmt hset.valid hs (by simp [Stmt.vars]),
      in_of_stmt hset.valid hs (by simp [Stmt.vars])⟩
  | loadStatic => exact ⟨field_of_require hcheck, in_of_stmt hset.valid hs (by simp [Stmt.vars])⟩
  | storeStatic => exact ⟨in_of_stmt hset.valid hs (by simp [Stmt.vars]), field_of_require hcheck⟩
  | call => trivial

/-- What an access to an object of the heap does is about what the program has. -/
theorem in_of_access {c : Context} {v : VarId} {o : HeapObject}
    (hs : setup.program.stmt? site = some stmt) (ho : ∃ a, setup.heap.object? o.object = some a)
    (h : Access c v o stmt f) : f.In setup.program.toProgram setup.heap := by
  obtain ⟨d, -, hcheck⟩ := checkStmt_of_validate hset.valid hs
  cases h with
  | storeField =>
    exact ⟨in_of_stmt hset.valid hs (by simp [Stmt.vars]), ho, field_of_require hcheck⟩
  | loadField =>
    exact ⟨⟨ho, field_of_require hcheck⟩, in_of_stmt hset.valid hs (by simp [Stmt.vars])⟩
  | storeArray => exact ⟨in_of_stmt hset.valid hs (by simp [Stmt.vars]), ho⟩
  | loadArray => exact ⟨ho, in_of_stmt hset.valid hs (by simp [Stmt.vars])⟩

/-- Facts about what the program has are closed under the rules, for every selector. -/
theorem closed_in (entries : List MethodId) :
    Closed setup entries (Fact.In setup.program.toProgram setup.heap) where
  empty := trivial
  entry _ _ := trivial
  flow hf ho := ⟨hf.2, ho.2⟩
  rule := by
    intro g f hr hg
    cases hr with
    | holder | source => exact hg.1
    | target => exact hg.2
    | effect hs h => exact in_of_effect hset hs h
    | access hs h => exact in_of_access hset hs hg.2 h
    | invocation h =>
      cases h with
      | call => trivial
      | receiver hr hm ht =>
        exact ⟨in_of_mentioned hset.valid hm (by simp [mentionedVars, ht]), hg.2⟩
    | argument hs hm ha =>
      obtain ⟨harg, hparam⟩ := List.of_mem_zip ha
      exact ⟨in_of_stmt hset.valid hs (by simp [Stmt.vars, Call.vars, harg]),
        in_of_mentioned hset.valid hm (by simp [mentionedVars, hparam])⟩
    | result hs hr =>
      exact in_of_stmt (h := setup.heap) hset.valid hs (by simp [Stmt.vars, Call.vars, hr])
    | returned hs hm hr hv =>
      exact ⟨in_of_mentioned hset.valid hm (by simp [mentionedVars, hv]),
        in_of_stmt hset.valid hs (by simp [Stmt.vars, Call.vars, hr])⟩
    | _ => trivial

end

/-! ## The places that point to something -/

namespace Place

/-- The name of a variable, if the place is one. -/
def varName? (p : Program) (place : Place) : Option String := place.var?.map p.varName

/-- A heap place that is there has a name. -/
theorem In.exists_heapName? {p : Program} {h : Heap} {place : Place} (hin : place.In p h)
    (hv : place.var? = none) : ∃ name, place.heapName? p h = some name := by
  cases place with
  | var v => cases hv
  | instanceField o f =>
    obtain ⟨⟨a, ha⟩, -⟩ := hin
    exact ⟨_, by rw [heapName?, ha]; rfl⟩
  | staticField f =>
    obtain ⟨d, hd⟩ := hin
    exact ⟨_, by rw [heapName?, hd]; rfl⟩
  | arraySlots o =>
    obtain ⟨a, ha⟩ := hin
    exact ⟨_, by rw [heapName?, ha]; rfl⟩

end Place

namespace Solution

variable {s : Solution} {p : Program} {place : Place}

/-- The variables that point to something. -/
def varPlaces (s : Solution) : List Place := s.places.filter (·.var?.isSome)

/-- The list describes the objects of the place, one by one. -/
def Describes (s : Solution) (p : Program) (place : Place) (objects : List String) : Prop :=
  List.Forall₂ (fun o text => ∃ a, s.heap.object? o = some a ∧ text = a.describe p)
    (s.pointsTo place).toList objects

/-- The table has one entry for each of the places, under its name and with exactly its objects. -/
structure Keeps (s : Solution) (p : Program) (name? : Place → Option String) (places : List Place)
    (t : NameMap (List String)) : Prop where
  size : t.size = places.length
  entry : ∀ place ∈ places, ∃ key objects, name? place = some key ∧ t.get? key = some objects ∧
    s.Describes p place objects

/-- No two heap places that point to something are alike. -/
def Unshadowed (s : Solution) (p : Program) : Prop := s.heapPlaces.Pairwise fun x y => ¬x.Alike p y

theorem nodup_places (s : Solution) : s.places.Nodup := nodup_eraseDups _

/-- The places listed are those that point to something. -/
theorem mem_places_iff (hw : s.state.WellFormed) :
    place ∈ s.places ↔ ∃ o, o ∈ s.pointsTo place := by
  simp only [places, pointsTo, mem_foldl_union_iff, List.mem_eraseDups, List.mem_filterMap,
    List.mem_filter, Prod.exists, Bool.not_eq_true', decide_eq_true_eq]
  constructor
  · rintro ⟨q, xs, ⟨hmem, hne⟩, hplace⟩
    obtain ⟨i, -, rfl⟩ := Arena.mem_pointerSets_iff.1 hmem
    have hex : ∃ j, j ∈ s.arena.pointsTo i := by
      by_contra hno
      rw [Bool.eq_false_iff] at hne
      exact hne (IdSet.isEmpty_iff.2 fun j hj => hno ⟨j, hj⟩)
    obtain ⟨j, hj⟩ := hex
    obtain ⟨o, hobj⟩ := hw.arena.object j (hw.pointsTo i j hj)
    obtain ⟨k, hk, -⟩ := Arena.object?_eq_some_iff.1 hobj
    exact ⟨_, Or.inr ⟨q, _, ⟨hmem, hplace⟩, Arena.mem_erase_iff.2 ⟨j, hj, _, hk, rfl⟩⟩⟩
  · rintro ⟨o, ho | ⟨q, xs, ⟨hmem, hplace⟩, ho⟩⟩
    · exact absurd ho IdSet.not_mem_empty
    · obtain ⟨j, hj, -⟩ := Arena.mem_erase_iff.1 ho
      refine ⟨q, xs, ⟨hmem, ?_⟩, hplace⟩
      rw [Bool.eq_false_iff]
      exact fun hempty => IdSet.isEmpty_iff.1 hempty j hj

/-- A place that points to something is a variable or a heap place. -/
theorem places_perm (s : Solution) : (s.varPlaces ++ s.heapPlaces).Perm s.places := by
  rw [List.perm_iff_count]
  intro place
  have hcount : ∀ test : Place → Bool, (s.places.filter test).count place =
      if test place = true then s.places.count place else 0 := by
    intro test
    by_cases h : test place = true
    · rw [if_pos h, List.count_filter h]
    · rw [if_neg h, List.count_eq_zero]
      exact fun hmem => h (List.mem_filter.1 hmem).2
  simp only [varPlaces, heapPlaces, List.flatMap_cons, List.flatMap_nil, List.count_append, hcount]
  cases place <;> simp [Place.var?, Place.rank]

theorem mem_varPlaces_iff : place ∈ s.varPlaces ↔ place ∈ s.places ∧ ∃ v, place = .var v := by
  rw [varPlaces, List.mem_filter]
  cases place <;> simp [Place.var?]

theorem mem_heapPlaces_iff : place ∈ s.heapPlaces ↔ place ∈ s.places ∧ place.var? = none := by
  simp only [heapPlaces, List.mem_flatMap, List.mem_filter]
  cases place <;> simp [Place.var?, Place.rank]

/-- The program and the heap have what the places that point to something are made of. -/
theorem in_of_mem_places {setup : Setup} {entries : List MethodId} (hset : setup.WellFormed)
    (hs : s.state.Sound setup (Derivable setup entries)) (hplace : place ∈ s.places) :
    place.In setup.program.toProgram setup.heap := by
  obtain ⟨o, ho⟩ := (mem_places_iff hs.wellFormed).1 hplace
  obtain ⟨l, c, rfl, hfound⟩ := (mem_pointsTo_iff hs.wellFormed).1 ho
  exact ((closed_in hset entries).of_derivable (hs.knows _ (Or.inl hfound))).1

/-- Every object of a place has its description. -/
theorem describes_described (hw : s.state.WellFormed)
    (hdescribed : ∀ o, s.state.Found (.object o) → ∃ a, s.heap.object? o.object = some a)
    (hfound : ∀ l o, s.state.Found (.pointsTo l o) → s.state.Found (.object o)) (p : Program)
    (place : Place) : s.Describes p place (s.described p place) := by
  have hobject : ∀ o ∈ (s.pointsTo place).toList, ∃ a, s.heap.object? o = some a := by
    intro o ho
    obtain ⟨l, c, -, hf⟩ := (mem_pointsTo_iff hw).1 (IdSet.mem_toList.1 ho)
    exact hdescribed _ (hfound _ _ hf)
  rw [Describes, described]
  generalize (s.pointsTo place).toList = os at hobject
  induction os with
  | nil => exact .nil
  | cons o os ih =>
    obtain ⟨a, ha⟩ := hobject o List.mem_cons_self
    rw [List.filterMap_cons_some (b := a.describe p) (by rw [ha]; rfl)]
    exact .cons ⟨a, ha, rfl⟩ (ih fun o ho => hobject o (List.mem_cons_of_mem _ ho))

/-- A table built from named places keeps them exactly if their names differ. -/
theorem keeps_ofList_iff {name? : Place → Option String} {places : List Place}
    (hnamed : ∀ place ∈ places, ∃ key, name? place = some key)
    (hdescribed : ∀ place ∈ places, s.Describes p place (s.described p place)) :
    s.Keeps p name? places
        (.ofList (places.filterMap fun place => (name? place).map (·, s.described p place))) ↔
      (places.map name?).Nodup := by
  obtain ⟨name, hname⟩ : ∃ name : Place → String, ∀ place ∈ places, name? place = some (name place) := by
    refine ⟨fun place => (name? place).getD "", fun place hplace => ?_⟩
    obtain ⟨key, hkey⟩ := hnamed place hplace
    simp [hkey]
  have hentries : (places.filterMap fun place => (name? place).map (·, s.described p place)) =
      places.map fun place => (name place, s.described p place) := by
    rw [List.filterMap_eq_map_iff_forall_eq_some]
    intro place hplace
    rw [hname place hplace]
    rfl
  have hkeys : ((places.map fun place => (name place, s.described p place)).map (·.1)) =
      places.map name := List.map_map
  have hnodup : (places.map name?).Nodup ↔ (places.map name).Nodup := by
    have hmap : places.map name? = (places.map name).map some := by
      rw [List.map_map]
      exact List.map_congr_left hname
    rw [hmap, List.nodup_map_iff fun _ _ => Option.some.inj]
  rw [hentries, hnodup, ← hkeys]
  constructor
  · intro h
    rw [← NameMap.size_ofList_iff, h.size, List.length_map]
  · intro h
    refine ⟨by rw [NameMap.size_ofList_iff.2 h, List.length_map], fun place hplace => ?_⟩
    refine ⟨_, _, hname place hplace, (NameMap.get?_ofList_iff h).2 ?_, hdescribed place hplace⟩
    exact List.mem_map.2 ⟨place, hplace, rfl⟩

/-! ## What the tables of a report keep -/

/-- The names of what points to something differ, in a program that is well named: those of variables
always, those of heap places if no two of these are alike. -/
theorem nodup_names (hp : p.validate = .ok ()) (hn : p.WellNamed)
    (hin : ∀ place ∈ s.places, place.In p (.ofProgram p)) :
    (s.varPlaces.map (Place.varName? p)).Nodup ∧
      ((s.heapPlaces.map (Place.heapName? p (.ofProgram p))).Nodup ↔ s.Unshadowed p) := by
  constructor
  · have hnodup : s.varPlaces.Nodup := s.nodup_places.filter _
    refine List.pairwise_map.2 (hnodup.imp_of_mem ?_)
    intro x y hx hy hne heq
    obtain ⟨hx, v, rfl⟩ := mem_varPlaces_iff.1 hx
    obtain ⟨hy, w, rfl⟩ := mem_varPlaces_iff.1 hy
    obtain ⟨d, hd⟩ := hin _ hx
    obtain ⟨d', hd'⟩ := hin _ hy
    exact hne (congrArg Place.var (Program.varName_inj hp hn hd hd' (Option.some.inj heq)))
  · rw [List.nodup_iff_pairwise_ne, List.pairwise_map, Unshadowed]
    refine List.Pairwise.iff_of_mem fun {x y} hx hy => ?_
    obtain ⟨hx, hxv⟩ := mem_heapPlaces_iff.1 hx
    obtain ⟨hy, hyv⟩ := mem_heapPlaces_iff.1 hy
    exact not_congr (Place.heapName?_eq_iff hp hn (hin x hx) (hin y hy) hxv hyv)

theorem varPointsTo_summary (s : Solution) (p : Program) (durationMs : Float) :
    (s.summary p durationMs).varPointsTo = .ofList (s.varPlaces.filterMap fun place =>
      (place.varName? p).map (·, s.described p place)) := by
  have hname : ∀ place : Place, (place.var?.map fun v => (p.varName v, s.described p place)) =
      if place.var?.isSome then (place.varName? p).map (·, s.described p place) else none := by
    intro place
    cases place <;> simp [Place.var?, Place.varName?]
  simp only [summary, varPlaces, List.filterMap_filter, hname]

theorem exists_varName? (hplace : place ∈ s.varPlaces) : ∃ key, place.varName? p = some key := by
  obtain ⟨-, v, rfl⟩ := mem_varPlaces_iff.1 hplace
  exact ⟨p.varName v, rfl⟩

theorem exists_heapName? (hin : ∀ place ∈ s.places, place.In p (.ofProgram p))
    (hplace : place ∈ s.heapPlaces) : ∃ key, place.heapName? p (.ofProgram p) = some key := by
  obtain ⟨hmem, hv⟩ := mem_heapPlaces_iff.1 hplace
  exact (hin place hmem).exists_heapName? hv

end Solution

/-- What the report on an analysis keeps, for every checked program, every configuration and every
selector. The places are those that point to something, each once, and each is a variable or a heap
place. The table of variables, and likewise that of heap places, has exactly one entry for each of them,
under its name and with exactly its objects, if and only if these names differ. In a program that is
well named those of the variables do, and those of the heap places do unless two of these are alike. -/
theorem summary_keeps {c : Config} {custom : Option Selector} {p : Program} {s : Solution}
    (h : analyze c custom p.indexed = .ok s) (durationMs : Float) :
    (s.places.Nodup ∧ ∀ place, place ∈ s.places ↔ ∃ o, o ∈ s.pointsTo place) ∧
    (s.varPlaces ++ s.heapPlaces).Perm s.places ∧
    (s.Keeps p (Place.varName? p) s.varPlaces (s.summary p durationMs).varPointsTo ↔
      (s.varPlaces.map (Place.varName? p)).Nodup) ∧
    (s.Keeps p (Place.heapName? p s.heap) s.heapPlaces (s.summary p durationMs).fieldPointsTo ↔
      (s.heapPlaces.map (Place.heapName? p s.heap)).Nodup) ∧
    (p.WellNamed → (s.varPlaces.map (Place.varName? p)).Nodup ∧
      ((s.heapPlaces.map (Place.heapName? p s.heap)).Nodup ↔ s.Unshadowed p)) := by
  obtain ⟨hp, hheap, entries, -, hsolve⟩ := solve_of_analyze h
  have hset : (p.setup (custom.getD c.selector)).WellFormed := Program.wellFormed_setup hp
  obtain ⟨hsound, -, hcomplete⟩ := Solver.outcome_of_solve hset hsolve
  have hin : ∀ place ∈ s.places, place.In p (.ofProgram p) := fun place hplace =>
    Solution.in_of_mem_places hset hsound hplace
  have hdescribed : ∀ place, s.Describes p place (s.described p place) := by
    refine Solution.describes_described hsound.wellFormed ?_ (fun l o => hcomplete.closed.rule .held) p
    rw [hheap]
    exact hcomplete.described
  refine ⟨⟨s.nodup_places, fun place => Solution.mem_places_iff hsound.wellFormed⟩, s.places_perm,
    ?_, ?_, ?_⟩
  · rw [Solution.varPointsTo_summary]
    exact Solution.keeps_ofList_iff (fun place hplace => Solution.exists_varName? hplace)
      fun place _ => hdescribed place
  · exact Solution.keeps_ofList_iff
      (fun place hplace => hheap ▸ Solution.exists_heapName? hin hplace)
      fun place _ => hdescribed place
  · intro hn
    rw [hheap]
    exact Solution.nodup_names hp hn hin

/-- The small program is well named, and the report on it keeps five variables and a field. -/
theorem summary_keeps_sample : Sample.program.WellNamed ∧ ∃ s,
    analyze .standard none Sample.program.indexed = .ok s ∧ s.varPlaces.length = 5 ∧
      s.heapPlaces = [.instanceField 0 0] ∧ ∀ durationMs,
        s.Keeps Sample.program (Place.varName? Sample.program) s.varPlaces
          (s.summary Sample.program durationMs).varPointsTo ∧
        s.Keeps Sample.program (Place.heapName? Sample.program s.heap) s.heapPlaces
          (s.summary Sample.program durationMs).fieldPointsTo := by
  have hn : Sample.program.WellNamed := by constructor <;> decide
  obtain ⟨s, hs, htest⟩ := exists_ok_of_any (by decide +kernel :
    (analyze .standard none Sample.program.indexed).toOption.any (fun s =>
      s.varPlaces.length = 5 ∧ s.heapPlaces = [.instanceField 0 0]) = true)
  obtain ⟨hvars, hplaces⟩ := of_decide_eq_true htest
  refine ⟨hn, s, hs, hvars, hplaces, fun durationMs => ?_⟩
  obtain ⟨-, -, hvar, hheap, hnames⟩ := summary_keeps hs durationMs
  have hunshadowed : s.Unshadowed Sample.program := by
    rw [Solution.Unshadowed, hplaces]
    exact List.pairwise_singleton _ _
  exact ⟨hvar.2 (hnames hn).1, hheap.2 ((hnames hn).2.2 hunshadowed)⟩

namespace Sample

/-- `class A { A f; static void main() { b = new B; b.f = b; ((A) b).f = b; } }` and
`class B extends A { A f; }` -/
def shadowing : Program where
  classes := #[{ ClassDecl.plain 0 "A" with methods := .ofList [("void main()", 0)] },
    { ClassDecl.plain 1 "B" with superclass := some 0 }]
  fields := #[⟨0, "f", 0, false⟩, ⟨1, "f", 1, false⟩]
  methods := #[{ main with body := [.new 0 (.ofClass 1), .storeField 0 1 0, .storeField 0 0 0] }]
  vars := #[⟨0, "b", 0⟩]
  entry := some 0
  rootClass := none

end Sample

/-- Two fields of one object point to something, and the report has one entry for both. -/
theorem summary_loses_shadowed_field : Sample.shadowing.WellNamed ∧ ∃ s,
    analyze .standard none Sample.shadowing.indexed = .ok s ∧
      s.heapPlaces = [.instanceField 0 1, .instanceField 0 0] ∧
      ∀ durationMs, (s.summary Sample.shadowing durationMs).fieldPointsTo.entries =
        [("B@<A: void main()>#0.f", ["B@<A: void main()>#0"])] := by
  refine ⟨by constructor <;> decide, ?_⟩
  obtain ⟨s, hs, htest⟩ := exists_ok_of_any (by decide +kernel :
    (analyze .standard none Sample.shadowing.indexed).toOption.any (fun s =>
      s.heapPlaces = [.instanceField 0 1, .instanceField 0 0] ∧
        (s.summary Sample.shadowing 0).fieldPointsTo.entries =
          [("B@<A: void main()>#0.f", ["B@<A: void main()>#0"])]) = true)
  obtain ⟨hplaces, hentries⟩ := of_decide_eq_true htest
  exact ⟨s, hs, hplaces, fun _ => hentries⟩

end PointsTo
