import PointsTo.Analysis.Basic
import PointsTo.CallGraph.ByHierarchy
import PointsTo.Program.Edit
import PointsTo.Proofs.Projection

/-!
# When an index is out of date

An edit leaves the index as it was. The guard `ensureFresh` compares three numbers only: those of the
variables, of the classes and of the statements (`ensureFresh_edit_iff`). It therefore never refuses a
new index, and it sees every edit that adds or removes something the index tells of
(`fresh_or_refused`). What it does not see are edits that replace: a statement written over another
one leaves all three numbers as they are, and the analyses then read uses that are no longer there
(`stale_index_accepted`).
-/

namespace PointsTo

namespace ClassDecl

/-- What an index reads of a class. -/
def outline (c : ClassDecl) : ClassId × String × Option ClassId × List ClassId × Bool :=
  (c.id, c.name, c.superclass, c.interfaces, c.isInterface)

end ClassDecl

namespace Program

/-- Everything of `p` that an index tells of is in `q` as well: variables, classes with their direct
supertypes, and the bodies of its methods, into which `q` may insert statements. -/
structure Within (p q : Program) : Prop where
  vars : p.vars.size ≤ q.vars.size
  classes : (p.classes.toList.map (·.outline)).Sublist (q.classes.toList.map (·.outline))
  methods : ∀ m d, p.method? m = some d →
    ∃ d', q.method? m = some d' ∧ d'.id = d.id ∧ d.body.Sublist d'.body

/-! ## The index as a function of what it reads -/

theorem sitesWhere_eq_of_sites {p q : Program} {test : Stmt → Bool}
    (h : p.methods.toList.flatMap (·.sites) = q.methods.toList.flatMap (·.sites)) :
    p.sitesWhere test = q.sitesWhere test := by
  rw [sitesWhere_eq, sitesWhere_eq, h]

theorem subclassesOf_eq_of_outlines {p q : Program} {c : ClassId}
    (h : p.classes.toList.map (·.outline) = q.classes.toList.map (·.outline)) :
    p.subclassesOf c = q.subclassesOf c := by
  have hread : ∀ r : Program, r.subclassesOf c =
      ((r.classes.toList.map (·.outline)).filter (·.2.2.1 = some c)).map (·.1) := by
    intro r
    rw [subclassesOf, List.filter_map, List.map_map]
    rfl
  rw [hread, hread, h]

theorem listingInterface_eq_of_outlines {p q : Program} {interfaces : Bool} {c : ClassId}
    (h : p.classes.toList.map (·.outline) = q.classes.toList.map (·.outline)) :
    p.listingInterface interfaces c = q.listingInterface interfaces c := by
  have hread : ∀ r : Program, r.listingInterface interfaces c =
      ((r.classes.toList.map (·.outline)).filter (·.2.2.2.2 = interfaces)).flatMap fun d =>
        (d.2.2.2.1.filter (· = c)).map fun _ => d.1 := by
    intro r
    rw [listingInterface, List.filter_map, List.flatMap_map]
    rfl
  rw [hread, hread, h]

/-- An index depends on the variables' number, the outlines of the classes and the statements. -/
theorem makeIndex_eq_of {p q : Program} (hv : p.vars.size = q.vars.size)
    (hc : p.classes.toList.map (·.outline) = q.classes.toList.map (·.outline))
    (hs : p.methods.toList.flatMap (·.sites) = q.methods.toList.flatMap (·.sites))
    (hn : p.stmtCount = q.stmtCount) : p.makeIndex = q.makeIndex := by
  have hsize : p.classes.size = q.classes.size := by simpa using congrArg List.length hc
  have hnames : (p.classes.toList.map fun c => (c.name, c.id)) =
      q.classes.toList.map fun c => (c.name, c.id) := by
    have h := congrArg (List.map fun o : ClassId × String × Option ClassId × List ClassId × Bool =>
      (o.2.1, o.1)) hc
    rwa [List.map_map, List.map_map] at h
  have huses : p.usesOf = q.usesOf := by
    funext v
    simp only [usesOf, sitesWhere_eq_of_sites hs]
  have hsub : p.subclassesOf = q.subclassesOf := funext fun c => subclassesOf_eq_of_outlines hc
  have hlist : p.listingInterface = q.listingInterface :=
    funext fun b => funext fun c => listingInterface_eq_of_outlines hc
  simp only [makeIndex, hv, hsize, hnames, huses, hsub, hlist, hn]

end Program

/-! ## Bodies that only grow -/

section

variable {xs ys : List MethodDecl}

/-- Method by method, `ys` holds the bodies of `xs`. -/
def BodiesWithin (xs ys : List MethodDecl) : Prop :=
  ∀ (i : Nat) (d : MethodDecl), xs[i]? = some d →
    ∃ d', ys[i]? = some d' ∧ d'.id = d.id ∧ d.body.Sublist d'.body

theorem BodiesWithin.cons {x : MethodDecl} (h : BodiesWithin (x :: xs) ys) :
    ∃ y zs, ys = y :: zs ∧ y.id = x.id ∧ x.body.Sublist y.body ∧ BodiesWithin xs zs := by
  obtain ⟨y, hy, hid, hbody⟩ := h 0 x rfl
  cases ys with
  | nil => cases hy
  | cons z zs =>
    cases hy
    exact ⟨y, zs, rfl, hid, hbody, fun i d hd => h (i + 1) d hd⟩

theorem BodiesWithin.length_le (h : BodiesWithin xs ys) :
    (xs.flatMap (·.body)).length ≤ (ys.flatMap (·.body)).length := by
  induction xs generalizing ys with
  | nil => exact Nat.zero_le _
  | cons x xs ih =>
    obtain ⟨y, zs, rfl, -, hbody, htail⟩ := h.cons
    rw [List.flatMap_cons, List.flatMap_cons, List.length_append, List.length_append]
    exact Nat.add_le_add hbody.length_le (ih htail)

/-- Methods that hold the bodies of others and no more statements hold the same statements. -/
theorem BodiesWithin.sites_eq (h : BodiesWithin xs ys)
    (hn : (xs.flatMap (·.body)).length = (ys.flatMap (·.body)).length) :
    xs.flatMap (·.sites) = ys.flatMap (·.sites) := by
  induction xs generalizing ys with
  | nil =>
    -- whatever follows in `ys` has no statements
    have hnil : ys.flatMap (·.body) = [] := List.eq_nil_of_length_eq_zero hn.symm
    refine (List.flatMap_eq_nil_iff.2 fun d hd => ?_).symm
    rw [MethodDecl.sites, List.flatMap_eq_nil_iff.1 hnil d hd]
    rfl
  | cons x xs ih =>
    obtain ⟨y, zs, rfl, hid, hbody, htail⟩ := h.cons
    simp only [List.flatMap_cons, List.length_append] at hn ⊢
    have hle := htail.length_le
    have hle' := hbody.length_le
    have heq : x.body = y.body := hbody.eq_of_length (by omega)
    rw [ih htail (by omega), MethodDecl.sites, MethodDecl.sites, heq, hid]

end

/-- A program that only adds to another one and has no more variables, classes and statements has the
same index. -/
theorem Program.Within.makeIndex_eq {p q : Program} (h : p.Within q) (hv : p.vars.size = q.vars.size)
    (hc : p.classes.size = q.classes.size) (hn : p.stmtCount = q.stmtCount) :
    p.makeIndex = q.makeIndex := by
  have hbodies : BodiesWithin p.methods.toList q.methods.toList := by
    intro m d hd
    obtain ⟨d', hd', hid, hbody⟩ := h.methods m d (by simpa [method?] using hd)
    exact ⟨d', by simpa [method?] using hd', hid, hbody⟩
  exact makeIndex_eq_of hv (h.classes.eq_of_length (by simpa using hc)) (hbodies.sites_eq hn) hn

/-! ## The guard -/

namespace IndexedProgram

/-- The index is the one that would be made now. -/
def Fresh (p : IndexedProgram) : Prop := p.index = p.makeIndex

instance (p : IndexedProgram) : Decidable p.Fresh := inferInstanceAs (Decidable (_ = _))

theorem ensureFresh_eq_ok_iff {p : IndexedProgram} :
    p.ensureFresh = .ok () ↔ p.index.varUses.size = p.vars.size ∧
      p.index.subclasses.size = p.classes.size ∧ p.index.stmtCount = p.stmtCount := by
  rw [ensureFresh, require_eq_ok_iff]
  simp [and_assoc]

/-- A new index is never refused. -/
theorem Fresh.ensureFresh_eq_ok {p : IndexedProgram} (h : p.Fresh) : p.ensureFresh = .ok () := by
  rw [ensureFresh_eq_ok_iff, h]
  simp [Program.makeIndex]

/-- After an edit the guard compares three numbers with what they were. -/
theorem ensureFresh_edit_iff {p : Program} {f : Program → Program} :
    (p.indexed.edit f).ensureFresh = .ok () ↔ p.vars.size = (f p).vars.size ∧
      p.classes.size = (f p).classes.size ∧ p.stmtCount = (f p).stmtCount := by
  rw [ensureFresh_eq_ok_iff]
  simp [edit, Program.indexed, Program.makeIndex]

/-- Whatever an analysis of an edited program answers, the guard has let its index pass. -/
theorem ensureFresh_of_analyze {p : IndexedProgram} {c : Config} {custom : Option Selector}
    {s : Solution} (h : analyze c custom p = .ok s) : p.ensureFresh = .ok () := by
  simp only [analyze, bind_eq_ok_iff, mapError_eq_ok_iff] at h
  obtain ⟨_, _, _, _, _, hfresh, -⟩ := h
  exact hfresh

theorem ensureFresh_of_graphFrom {p : IndexedProgram} {entries : List MethodId}
    {g : CallGraph Site MethodId} (h : p.graphFrom entries = .ok g) : p.ensureFresh = .ok () := by
  unfold graphFrom at h
  split at h
  · cases h
  · simp only [bind_eq_ok_iff, mapError_eq_ok_iff] at h
    obtain ⟨_, _, _, hfresh, -⟩ := h
    exact hfresh

/-- An edit that only adds, or only removes, leaves the index as a new one would be or is refused: by
the guard, and so by both analyses. -/
theorem fresh_or_refused {p : Program} {f : Program → Program} (h : p.Within (f p) ∨ (f p).Within p) :
    ((p.indexed.edit f).ensureFresh = .ok () ↔ (p.indexed.edit f).Fresh) ∧
      (∀ c custom s, analyze c custom (p.indexed.edit f) = .ok s → (p.indexed.edit f).Fresh) ∧
      ∀ more g, (p.indexed.edit f).hierarchyGraph more = .ok g → (p.indexed.edit f).Fresh := by
  have hguard : (p.indexed.edit f).ensureFresh = .ok () → (p.indexed.edit f).Fresh := by
    intro hok
    obtain ⟨hv, hc, hn⟩ := ensureFresh_edit_iff.1 hok
    rcases h with h | h
    · exact h.makeIndex_eq hv hc hn
    · exact (h.makeIndex_eq hv.symm hc.symm hn.symm).symm
  refine ⟨⟨hguard, Fresh.ensureFresh_eq_ok⟩, ?_, ?_⟩
  · intro c custom s hs
    exact hguard (ensureFresh_of_analyze hs)
  · intro more g hg
    exact hguard (ensureFresh_of_graphFrom hg)

/-- `b = a.f`, added to the first method of the small program. -/
def appendLoad (p : Program) : Program :=
  p.modifyMethod 0 fun d => { d with body := d.body ++ [.loadField 1 0 0] }

/-- `a.f = a`, written over the call in the first method of the small program. -/
def overwriteCall (p : Program) : Program :=
  p.modifyMethod 0 fun d => { d with body := d.body.set 1 (.storeField 0 0 0) }

/-- One load more makes the index stale, and the guard refuses it. -/
theorem fresh_or_refused_appendLoad :
    Sample.program.Within (appendLoad Sample.program) ∧
      ¬(Sample.program.indexed.edit appendLoad).Fresh := by
  have h : Sample.program.Within (appendLoad Sample.program) := by
    refine ⟨Nat.le_refl _, List.Sublist.refl _, fun m d hd => ?_⟩
    simp only [appendLoad, Program.method?, Program.modifyMethod, Array.getElem?_modify] at hd ⊢
    by_cases hm : 0 = m
    · rw [if_pos hm, hd]
      exact ⟨_, rfl, rfl, List.sublist_append_left _ _⟩
    · rw [if_neg hm, hd]
      exact ⟨d, rfl, rfl, List.Sublist.refl _⟩
  refine ⟨h, fun hfresh => ?_⟩
  exact absurd ((fresh_or_refused (Or.inl h)).1.2 hfresh) (by decide)

/-- The store passes the guard although the index does not list it, and the analysis never learns that
`a.f`, and so `c`, points to the object. -/
theorem stale_index_accepted :
    (Sample.program.indexed.edit overwriteCall).validate = .ok () ∧
      (Sample.program.indexed.edit overwriteCall).ensureFresh = .ok () ∧
      ¬(Sample.program.indexed.edit overwriteCall).Fresh ∧
      (analyze .standard none (Sample.program.indexed.edit overwriteCall)).toOption.map
        (·.varPointsTo 2) = some ∅ ∧
      (analyze .standard none (Sample.program.indexed.edit overwriteCall).reindex).toOption.map
        (·.varPointsTo 2) = some (.singleton 0) := by
  decide +kernel

end IndexedProgram

end PointsTo
