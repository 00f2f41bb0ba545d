import PointsTo.Proofs.Freshness
import PointsTo.Proofs.HierarchyGraph
import PointsTo.Proofs.Naming
import PointsTo.Proofs.Scope

/-!
# No reference of a program leads nowhere

Tables refer to each other by position, and a look-up at a position that a table does not have finds
nothing. In a checked program no look-up is like that: whatever position the program mentions is there
(`Program.Linked`), and so is what its index and its heap list (`Program.linked_setup`). The search of the
hierarchy therefore meets classes and methods of the program only, and all that can keep it from an answer
is a static call that names no method (`IndexedProgram.linked_graphFrom`).
-/

namespace PointsTo

/-! ## The tables of a program -/

namespace Stmt

/-- The classes that the statement mentions. -/
def classes : Stmt → List ClassId
  | new _ ty => [ty.baseClass]
  | call c => [c.target.owner]
  | _ => []

/-- The fields that the statement mentions. -/
def fields : Stmt → List FieldId
  | loadStatic _ f | storeStatic f _ | loadField _ _ f | storeField _ f _ => [f]
  | _ => []

end Stmt

/-- The statement names classes and fields of the program, and a call in it that is not static has a
receiver. -/
structure Stmt.Sound (p : Program) (t : Stmt) : Prop where
  classes : ∀ c ∈ t.classes, c < p.classes.size
  fields : ∀ f ∈ t.fields, f < p.fields.size
  receiver : ∀ c, t = .call c → c.isStatic = false → c.receiver.isSome

theorem Program.checkStmt_eq_ok_iff {p : Program} {m : MethodDecl} {t : Stmt} :
    p.checkStmt m t = .ok () ↔ t.Sound p := by
  have hsound : t.Sound p ↔ (∀ c ∈ t.classes, c < p.classes.size) ∧ (∀ f ∈ t.fields, f < p.fields.size) ∧
      ∀ c, t = .call c → c.isStatic = false → c.receiver.isSome :=
    ⟨fun ⟨hc, hf, hr⟩ => ⟨hc, hf, hr⟩, fun ⟨hc, hf, hr⟩ => ⟨hc, hf, hr⟩⟩
  rw [hsound]
  cases t with
  | call c =>
    simp only [checkStmt, Stmt.classes, Stmt.fields, andThen_eq_ok_iff, require_eq_ok_iff, decide_eq_true_eq]
    cases h : c.isStatic <;> simp [h]
  | _ => simp [checkStmt, Stmt.classes, Stmt.fields, require_eq_ok_iff, pure, Except.pure]

/-- The statements that use a variable as base or receiver. -/
def VarUses.all (u : VarUses) : List Site :=
  u.storeFields ++ u.loadFields ++ u.storeArrays ++ u.loadArrays ++ u.calls

/-- Whatever position the program mentions is there. -/
structure Program.Linked (p : Program) : Prop where
  supertypes : ∀ c, ∀ sup ∈ p.supertypes c, sup < p.classes.size
  declared : ∀ {c subsignature m}, p.declared? c subsignature = some m → m < p.methods.size
  field : ∀ {f d}, p.field? f = some d → d.owner < p.classes.size
  method : ∀ {m d}, p.method? m = some d →
    d.owner < p.classes.size ∧ ∀ v ∈ mentionedVars d, v < p.vars.size
  var : ∀ {v d}, p.var? v = some d → d.method < p.methods.size
  stmt : ∀ {site stmt}, p.stmt? site = some stmt → (∀ c ∈ stmt.classes, c < p.classes.size) ∧
    (∀ f ∈ stmt.fields, f < p.fields.size) ∧ ∀ v ∈ stmt.vars, v < p.vars.size
  rootClass : ∀ c ∈ p.rootClass, c < p.classes.size
  entry : ∀ m ∈ p.entry, m < p.methods.size

/-- The index has an entry for every variable and every class, and whatever it lists is there. -/
structure IndexedProgram.Linked (p : IndexedProgram) : Prop where
  varUses : p.index.varUses.size = p.vars.size
  subclasses : p.index.subclasses.size = p.classes.size
  implementors : p.index.implementors.size = p.classes.size
  subinterfaces : p.index.subinterfaces.size = p.classes.size
  uses : ∀ v, ∀ site ∈ (p.uses v).all, ∃ stmt, p.stmt? site = some stmt
  directSubtypes : ∀ c, ∀ d ∈ p.directSubtypes c, d < p.classes.size
  subtypes : ∀ c < p.classes.size, ∀ d ∈ p.subtypes c, d < p.classes.size

/-- Objects stand at the positions of their ids, they come from allocations and classes of the program,
and each of its allocations has one. -/
structure Heap.Linked (h : Heap) (p : Program) : Prop where
  object : ∀ {o a}, h.object? o = some a → a.id = o ∧ (∃ lhs, p.stmt? a.site = some (.new lhs a.ty)) ∧
    a.ty.baseClass < p.classes.size ∧ a.container < p.classes.size
  allocation : ∀ {site lhs ty}, p.stmt? site = some (.new lhs ty) →
    ∃ a, h.objectAt? site = some a ∧ h.object? a.id = some a

/-- Whatever position a table mentions is there, in the program, in the index and in the heap. -/
structure Setup.Linked (setup : Setup) : Prop where
  program : setup.program.toProgram.Linked
  index : setup.program.Linked
  heap : setup.heap.Linked setup.program.toProgram

section

variable {p : Program} (hp : p.validate = .ok ())

include hp

namespace Program

theorem linked_stmt {site : Site} {stmt : Stmt} (hs : p.stmt? site = some stmt) :
    (∀ c ∈ stmt.classes, c < p.classes.size) ∧ (∀ f ∈ stmt.fields, f < p.fields.size) ∧
      ∀ v ∈ stmt.vars, v < p.vars.size := by
  obtain ⟨d, -, hcheck⟩ := checkStmt_of_validate hp hs
  obtain ⟨hclasses, hfields, -⟩ := checkStmt_eq_ok_iff.1 hcheck
  exact ⟨hclasses, hfields, fun v => var_lt_of_validate hp hs⟩

theorem linked_of_validate : p.Linked where
  supertypes _ _ := lt_of_mem_supertypes hp
  declared h := by
    obtain ⟨d, hd⟩ := method_of_declared? hp h
    exact method_lt hd
  field {f d} h := by
    have hcheck := checkField_of_validate hp h
    simp only [checkField, andThen_eq_ok_iff, require_eq_ok_iff, decide_eq_true_eq] at hcheck
    exact hcheck.2
  method {m d} h := by
    have hcheck := checkMethod_of_validate hp h
    simp only [checkMethod, andThen_eq_ok_iff, require_eq_ok_iff, decide_eq_true_eq] at hcheck
    exact ⟨hcheck.2.1, fun v => mentioned_lt_of_validate hp h⟩
  var h := by
    obtain ⟨m, hm⟩ := method_of_var hp h
    exact method_lt hm
  stmt := linked_stmt hp
  rootClass c hc := by
    obtain ⟨-, -, -, -, -, hroots⟩ := validate_eq_ok_iff.1 hp
    simp only [checkRoots, andThen_eq_ok_iff, forM_eq_ok_iff, require_eq_ok_iff,
      decide_eq_true_eq] at hroots
    exact hroots.1 c (Option.mem_toList.2 hc)
  entry m hm := by
    obtain ⟨-, -, -, -, -, hroots⟩ := validate_eq_ok_iff.1 hp
    simp only [checkRoots, andThen_eq_ok_iff, forM_eq_ok_iff, require_eq_ok_iff,
      decide_eq_true_eq] at hroots
    exact hroots.2 m (Option.mem_toList.2 hm)

theorem linked_indexed : p.indexed.Linked where
  varUses := by simp [indexed, makeIndex]
  subclasses := by simp [indexed, makeIndex]
  implementors := by simp [indexed, makeIndex]
  subinterfaces := by simp [indexed, makeIndex]
  uses v site hsite := by
    have hset : (p.setup .insensitive).WellFormed := wellFormed_setup hp
    simp only [VarUses.all, List.mem_append] at hsite
    rcases hsite with (((h | h) | h) | h) | h
    · obtain ⟨f, rhs, hs⟩ := hset.mem_storeFields.1 h
      exact ⟨_, hs⟩
    · obtain ⟨lhs, f, hs⟩ := hset.mem_loadFields.1 h
      exact ⟨_, hs⟩
    · obtain ⟨rhs, hs⟩ := hset.mem_storeArrays.1 h
      exact ⟨_, hs⟩
    · obtain ⟨lhs, hs⟩ := hset.mem_loadArrays.1 h
      exact ⟨_, hs⟩
    · obtain ⟨d, hs, -⟩ := hset.mem_calls.1 h
      exact ⟨_, hs⟩
  directSubtypes _ _ := lt_of_mem_directSubtypes hp
  subtypes c hc := by
    refine of_mem_collectSubtypes (fun _ _ _ => lt_of_mem_directSubtypes hp) (by simp) ?_
    intro d hd
    exact List.mem_singleton.1 hd ▸ hc

end Program

theorem Heap.linked_ofProgram : (Heap.ofProgram p).Linked p where
  object ha := by
    obtain ⟨hid, d, lhs, hd, hb, hcontainer⟩ := allocated_of_object? hp ha
    have hs : p.stmt? _ = some (.new lhs _) := Program.stmt?_eq_some_iff.2 ⟨d, hd, hb⟩
    refine ⟨hid, ⟨lhs, hs⟩, (Program.linked_stmt hp hs).1 _ (by simp [Stmt.classes]), ?_⟩
    exact hcontainer ▸ ((Program.linked_of_validate hp).method hd).1
  allocation hs := by
    obtain ⟨a, ha, -⟩ := objectAt?_ofProgram hp hs
    exact ⟨a, ha, (object?_of_objectAt? hp ha).2⟩

theorem Program.linked_setup (selector : Selector) : (p.setup selector).Linked :=
  ⟨linked_of_validate hp, linked_indexed hp, Heap.linked_ofProgram hp⟩

end

/-! ## Call graphs -/

/-- The methods and the calls of the graph are there. -/
structure CallGraph.Linked (g : CallGraph Site MethodId) (p : Program) : Prop where
  entries : ∀ m ∈ g.entries, ∃ d, p.method? m = some d
  reachable : ∀ m ∈ g.reachable, ∃ d, p.method? m = some d
  edges : ∀ e ∈ g.edges,
    (∃ d, p.stmt? e.site = some (.call d)) ∧ ∃ d, p.method? e.callee = some d

namespace CallGraph.Linked

variable {g : CallGraph Site MethodId} {p : Program}

theorem empty : (∅ : CallGraph Site MethodId).Linked p := ⟨nofun, nofun, nofun⟩

theorem addEntry (h : g.Linked p) {m : MethodId} (hm : ∃ d, p.method? m = some d) :
    (g.addEntry m).Linked p := by
  rw [CallGraph.addEntry]
  split
  · exact h
  · refine { h with entries := fun n hn => ?_ }
    rcases List.mem_append.1 hn with hn | hn
    · exact h.entries n hn
    · exact List.mem_singleton.1 hn ▸ hm

theorem addReachable (h : g.Linked p) {m : MethodId} (hm : ∃ d, p.method? m = some d) :
    (g.addReachable m).Linked p := by
  rw [CallGraph.addReachable_eq]
  split
  · exact h
  · refine { h with reachable := fun n hn => ?_ }
    rcases List.mem_append.1 hn with hn | hn
    · exact h.reachable n hn
    · exact List.mem_singleton.1 hn ▸ hm

theorem addEdge (h : g.Linked p) {e : CallEdge Site MethodId}
    (he : (∃ d, p.stmt? e.site = some (.call d)) ∧ ∃ d, p.method? e.callee = some d) :
    (g.addEdge e).Linked p := by
  rw [CallGraph.addEdge_eq]
  split
  · exact h
  · refine { h with edges := fun e' he' => ?_ }
    rcases List.mem_append.1 he' with he' | he'
    · exact h.edges e' he'
    · exact List.mem_singleton.1 he' ▸ he

/-- A graph to which things are added that are there stays linked. -/
theorem foldl {α : Type} {add : CallGraph Site MethodId → α → CallGraph Site MethodId} {xs : List α}
    (h : g.Linked p) (hadd : ∀ g, g.Linked p → ∀ x ∈ xs, (add g x).Linked p) :
    (xs.foldl add g).Linked p :=
  List.foldlRecOn xs add h hadd

end CallGraph.Linked

/-! ## The call graph of the hierarchy -/

theorem Program.of_resolveStatic_eq_error {p : Program} {d : Call} {e : ProgramError}
    (h : p.resolveStatic d = .error e) : p.declared? d.target.owner d.target.subsignature = none ∧
      e = .danglingMethod (.atCall (p.className d.target.owner) d.target.subsignature) := by
  unfold resolveStatic at h
  split at h
  · cases h
  · rename_i hnone
    cases h
    exact ⟨hnone, rfl⟩

/-- A static call in the program names a method that its class does not declare. -/
def Program.Dangles (p : Program) (e : ProgramError) : Prop :=
  ∃ site d, p.stmt? site = some (.call d) ∧ d.isStatic = true ∧
    p.declared? d.target.owner d.target.subsignature = none ∧
    e = .danglingMethod (.atCall (p.className d.target.owner) d.target.subsignature)

namespace IndexedProgram

/-- What a search lists is there. -/
structure HierarchySearch.Linked (s : HierarchySearch) (p : Program) : Prop where
  graph : s.graph.Linked p
  queue : ∀ m ∈ s.queue, ∃ d, p.method? m = some d

/-- The search goes on with what is there, or it has met a call that names no method. -/
def HierarchySearch.Answers (p : Program) : Except ProgramError HierarchySearch → Prop
  | .ok s => s.Linked p
  | .error e => p.Dangles e

/-- Only a static call can have no targets. -/
theorem of_targets_eq_error {p : IndexedProgram} {c : Call} {e : ProgramError}
    (hts : p.targets c = .error e) :
    c.isStatic = true ∧ p.declared? c.target.owner c.target.subsignature = none ∧
      e = .danglingMethod (.atCall (p.className c.target.owner) c.target.subsignature) := by
  rw [targets] at hts
  split at hts
  · rename_i hmode
    cases hstatic : p.resolveStatic c with
    | ok m =>
      rw [hstatic] at hts
      cases hts
    | error e' =>
      rw [hstatic] at hts
      cases hts
      exact ⟨decide_eq_true hmode, Program.of_resolveStatic_eq_error hstatic⟩
  all_goals cases hts

section

variable {p : Program} (hp : p.validate = .ok ()) {site : Site} {c : Call} {s : HierarchySearch}
  {m : MethodId}

include hp

theorem method_of_mem_targets {ts : IdSet} (hts : p.indexed.targets c = .ok ts) (hm : m ∈ ts) :
    ∃ d, p.method? m = some d := by
  have hdispatch : ∀ {cls}, p.dispatch cls c.target.subsignature = some m →
      ∃ d, p.method? m = some d := Program.method_of_dispatchWithin
  rw [targets] at hts
  split at hts
  · obtain ⟨m', hm', hts⟩ := bind_eq_ok_iff.1 hts
    cases hts
    obtain rfl : m = m' := by simpa using hm
    exact Program.method_of_resolveStatic hp hm'
  · cases hts
    rw [IdSet.mem_ofList, Option.mem_toList] at hm
    exact hdispatch hm
  all_goals
    cases hts
    rw [IdSet.mem_ofList] at hm
    obtain ⟨cls, -, hrun⟩ := List.mem_filterMap.1 hm
    exact hdispatch hrun

theorem answers_followCall (hs : p.stmt? site = some (.call c)) (h : s.Linked p) :
    HierarchySearch.Answers p (p.indexed.followCall site c s) := by
  rw [followCall]
  cases hts : p.indexed.targets c with
  | ok ts =>
    have hmethod : ∀ m ∈ ts.toList, ∃ d, p.method? m = some d := fun m hm =>
      method_of_mem_targets hp hts (IdSet.mem_toList.1 hm)
    refine ⟨h.graph.foldl fun g hg m hm => hg.addEdge ⟨⟨c, hs⟩, hmethod m hm⟩, ?_⟩
    intro m hm
    rcases List.mem_append.1 hm with hm | hm
    · exact h.queue m hm
    · exact hmethod m hm
  | error e =>
    obtain ⟨hstatic, hnone, he⟩ := of_targets_eq_error hts
    exact ⟨site, c, hs, hstatic, hnone, he⟩

/-- The rounds of a search meet methods of the program only. -/
theorem linked_followCalls (rounds : Nat) (h : s.Linked p) :
    (∀ g, p.indexed.followCalls rounds s = .ok g → g.Linked p) ∧
      ∀ e, p.indexed.followCalls rounds s = .error e → ∃ e', e = .program e' ∧ p.Dangles e' := by
  have hmethod : ∀ (s : HierarchySearch) m rest d, s.Linked p →
      s.queue.dropWhile (s.graph.reaches ·) = m :: rest → p.indexed.method? m = some d →
      HierarchySearch.Outcome (·.Linked p) p.Dangles
        (p.indexed.followMethod m d { s with queue := rest }) := by
    intro s m rest d hs hround hd
    rw [CallGraph.dropWhile_reaches] at hround
    have hrest : ∀ m' ∈ rest, ∃ d, p.method? m' = some d := fun m' hm =>
      hs.queue m' (Search.rest_subset_of_round hround (List.mem_cons_of_mem m hm))
    exact outcome_followMethod hd (fun s i c hs hcall => answers_followCall hp hcall hs)
      ⟨hs.graph.addReachable ⟨d, hd⟩, hrest⟩
  obtain ⟨hok, herror⟩ := outcome_followCalls (fun s hs => hs.queue) hmethod rounds h
  refine ⟨fun g hg => ?_, herror⟩
  obtain ⟨t, ht, rfl⟩ := hok g hg
  exact ht.graph

theorem graphFrom_eq {entries : List MethodId} (hne : entries ≠ []) :
    p.indexed.graphFrom entries =
      p.indexed.followCalls (p.methods.size + 1) ⟨entries.foldl .addEntry ∅, entries⟩ := by
  have hvalid : p.indexed.validate.mapError AnalysisError.program = .ok () := by
    rw [mapError_eq_ok_iff]
    exact hp
  have hfresh : p.indexed.ensureFresh.mapError AnalysisError.program = .ok () := by
    rw [mapError_eq_ok_iff]
    exact Fresh.ensureFresh_eq_ok rfl
  rw [graphFrom, if_neg (by simpa using hne), hvalid, hfresh]
  rfl

/-- The call graph of the hierarchy lists what is there only, and it fails only for a static call. -/
theorem linked_graphFrom {entries : List MethodId} (hne : entries ≠ [])
    (hentries : ∀ m ∈ entries, ∃ d, p.method? m = some d) :
    (∀ g, p.indexed.graphFrom entries = .ok g → g.Linked p) ∧
      ∀ e, p.indexed.graphFrom entries = .error e → ∃ e', e = .program e' ∧ p.Dangles e' := by
  rw [graphFrom_eq hp hne]
  exact linked_followCalls hp _
    ⟨.foldl .empty fun _ hg m hm => hg.addEntry (hentries m hm), hentries⟩

end

end IndexedProgram

end PointsTo
