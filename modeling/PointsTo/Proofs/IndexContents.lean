import PointsTo.Proofs.Loading
import PointsTo.Proofs.Tables

/-!
# What an index says

The analyses ask the index, and never the program, for the statements that use a variable, for the classes
right below a class and for the class of a name. A table that misses one of them loses what follows from it
without an error. The index of a checked program is faithful (`IndexedProgram.Faithful`): each table turns
around one thing that the program says, and holds it as often as the program says it. Main statement: a new
index is faithful, and it is the one that the machine fills entry by entry (`faithful_reindex`).
-/

namespace PointsTo

/-- The uses of one kind. -/
def VarUses.inSlot (u : VarUses) : Slot → List Site
  | .storeFields => u.storeFields
  | .loadFields => u.loadFields
  | .storeArrays => u.storeArrays
  | .loadArrays => u.loadArrays
  | .calls => u.calls

/-- How many times class `d` lists `c` among its interfaces; `d` has to be an interface, or none. -/
def Program.timesListed (p : Program) (interfaces : Bool) (c d : ClassId) : Nat :=
  (p.class? d).elim 0 fun decl => if decl.isInterface = interfaces then decl.interfaces.count c else 0

/-- The index says what the program says. -/
structure IndexedProgram.Faithful (p : IndexedProgram) : Prop where
  mem_storeFields : ∀ {v site}, site ∈ (p.uses v).storeFields ↔
    ∃ f rhs, p.stmt? site = some (.storeField v f rhs)
  mem_loadFields : ∀ {v site}, site ∈ (p.uses v).loadFields ↔
    ∃ lhs f, p.stmt? site = some (.loadField lhs v f)
  mem_storeArrays : ∀ {v site}, site ∈ (p.uses v).storeArrays ↔
    ∃ rhs, p.stmt? site = some (.storeArray v rhs)
  mem_loadArrays : ∀ {v site}, site ∈ (p.uses v).loadArrays ↔
    ∃ lhs, p.stmt? site = some (.loadArray lhs v)
  mem_calls : ∀ {v site}, site ∈ (p.uses v).calls ↔
    ∃ d, p.stmt? site = some (.call d) ∧ d.isStatic = false ∧ d.receiver = some v
  /-- The uses of a kind stand in program order, each one once. -/
  pairwise_uses : ∀ v slot, ((p.uses v).inSlot slot).Pairwise Site.Before
  mem_subclasses : ∀ {c d}, d ∈ p.subclasses c ↔ p.superclass? d = some c
  nodup_subclasses : ∀ c, (p.subclasses c).Nodup
  count_subinterfaces : ∀ c d, (p.subinterfaces c).count d = p.timesListed true c d
  count_implementors : ∀ c d, (p.implementors c).count d = p.timesListed false c d
  classNamed?_eq_some_iff : ∀ {name c}, p.classNamed? name = some c ↔
    ∃ decl, p.class? c = some decl ∧ decl.name = name

namespace Program

variable {p : Program} (hp : p.validate = .ok ())

include hp

/-! ## Uses -/

theorem wellFormed_insensitive : (p.setup .insensitive).WellFormed := wellFormed_setup hp

theorem pairwise_inSlot (v : VarId) (slot : Slot) :
    ((p.indexed.uses v).inSlot slot).Pairwise Site.Before := by
  have huses : p.indexed.uses v = if v < p.vars.size then p.usesOf v else .none :=
    (wellFormed_insensitive hp).uses_eq
  have hslot : (p.usesOf v).inSlot slot = sitesIn (p.methods.toList.flatMap (·.sites)) v slot := by
    rw [usesOf_eq]
    cases slot <;> rfl
  rw [huses]
  split
  · rw [hslot]
    exact (pairwise_sites hp).sublist (List.filter_sublist.map _)
  · cases slot <;> exact .nil

/-! ## Classes below a class -/

theorem nodup_class_ids : (p.classes.toList.map (·.id)).Nodup := by
  have hids : p.classes.toList.map (·.id) = List.range p.classes.size := by
    apply List.ext_getElem
    · simp
    · intro i hi _
      rw [List.getElem_map, List.getElem_range]
      refine class_id_of_validate hp ?_
      rw [class?, ← Array.getElem?_toList, List.getElem?_eq_getElem]
  rw [hids]
  exact List.nodup_range

/-- The list of a table is that of the program also for a class that is not there, which no class is
below. -/
theorem tabled_eq {table : Nat → List ClassId} {c : ClassId}
    (h : ∀ d ∈ table c, c ∈ p.supertypes d) :
    (((List.range p.classes.size).map table).toArray[c]?).getD [] = table c := by
  by_cases hlt : c < p.classes.size
  · simp [hlt]
  · have hnone : table c = [] := by
      rw [List.eq_nil_iff_forall_not_mem]
      exact fun d hd => hlt (lt_of_mem_supertypes hp (h d hd))
    simp [hlt, hnone]

theorem subclasses_indexed (c : ClassId) : p.indexed.subclasses c = p.subclassesOf c := by
  refine tabled_eq hp fun d hd => ?_
  obtain ⟨decl, hdecl, hsup⟩ := (mem_subclassesOf_iff hp).1 hd
  exact mem_supertypes_iff.2 ⟨decl, hdecl, List.mem_append_left _ (by simp [hsup])⟩

theorem listingInterface_indexed (interfaces : Bool) (c : ClassId) :
    (if interfaces then p.indexed.subinterfaces c else p.indexed.implementors c) =
      p.listingInterface interfaces c := by
  have hsup : ∀ d ∈ p.listingInterface interfaces c, c ∈ p.supertypes d := by
    intro d hd
    obtain ⟨decl, hdecl, -, hlists⟩ := (mem_listingInterface_iff hp).1 hd
    exact mem_supertypes_iff.2 ⟨decl, hdecl, List.mem_append_right _ hlists⟩
  cases interfaces with
  | false => exact tabled_eq hp hsup
  | true => exact tabled_eq hp hsup

theorem count_listingInterface (interfaces : Bool) (c d : ClassId) :
    (p.listingInterface interfaces c).count d = p.timesListed interfaces c d := by
  rw [timesListed]
  cases hd : p.class? d with
  | none =>
    rw [Option.elim_none, List.count_eq_zero, mem_listingInterface_iff hp]
    rintro ⟨decl, hdecl, -⟩
    rw [hd] at hdecl
    cases hdecl
  | some decl =>
    rw [Option.elim_some]
    obtain rfl := class_id_of_validate hp hd
    obtain ⟨before, after, hsplit⟩ := List.append_of_mem ((mem_classes_iff hp).2 hd)
    have hnodup := nodup_class_ids hp
    rw [hsplit, List.map_append, List.map_cons, List.nodup_append, List.nodup_cons] at hnodup
    obtain ⟨-, ⟨hafter, -⟩, hbefore⟩ := hnodup
    -- the other classes have other ids, so none of them is entered as this one
    have hother : ∀ xs : List ClassDecl, decl.id ∉ xs.map (·.id) →
        ((xs.filter (·.isInterface = interfaces)).flatMap fun d =>
          (d.interfaces.filter (· = c)).map fun _ => d.id).count decl.id = 0 := by
      intro xs hxs
      rw [List.count_eq_zero]
      simp only [List.mem_flatMap, List.mem_map, List.mem_filter]
      rintro ⟨e, ⟨he, -⟩, _, -, hid⟩
      exact hxs (List.mem_map.2 ⟨e, he, hid⟩)
    have hlisted : (decl.interfaces.filter (· = c)).map (fun _ => decl.id) =
        List.replicate (decl.interfaces.count c) decl.id := by
      rw [List.map_const', List.count_eq_length_filter]
      rfl
    rw [listingInterface, hsplit, List.filter_append, List.flatMap_append, List.count_append,
      hother before fun h => hbefore _ h _ List.mem_cons_self rfl, List.filter_cons]
    by_cases hkind : decl.isInterface = interfaces
    · rw [if_pos (decide_eq_true hkind), if_pos hkind, List.flatMap_cons, List.count_append, hlisted,
        hother after hafter, List.count_replicate_self]
      omega
    · rw [if_neg (by simpa using hkind), if_neg hkind, hother after hafter]

/-! ## Names -/

theorem classNamed?_iff {name : String} {c : ClassId} :
    p.indexed.classNamed? name = some c ↔ ∃ decl, p.class? c = some decl ∧ decl.name = name := by
  have hkeys : ((p.classes.toList.map fun c => (c.name, c.id)).map (·.1)).Nodup := by
    rw [List.map_map]
    exact nodup_classNames hp
  rw [IndexedProgram.classNamed?]
  refine (NameMap.get?_ofList_iff hkeys).trans ?_
  simp only [List.mem_map, Prod.mk.injEq, mem_classes_iff hp]
  constructor
  · rintro ⟨decl, hc, rfl, rfl⟩
    exact ⟨decl, hc, rfl⟩
  · rintro ⟨decl, hc, rfl⟩
    obtain rfl := class_id_of_validate hp hc
    exact ⟨decl, hc, rfl, rfl⟩

/-! ## The whole index -/

theorem faithful_indexed : p.indexed.Faithful where
  mem_storeFields := (wellFormed_insensitive hp).mem_storeFields
  mem_loadFields := (wellFormed_insensitive hp).mem_loadFields
  mem_storeArrays := (wellFormed_insensitive hp).mem_storeArrays
  mem_loadArrays := (wellFormed_insensitive hp).mem_loadArrays
  mem_calls := (wellFormed_insensitive hp).mem_calls
  pairwise_uses := pairwise_inSlot hp
  mem_subclasses := by
    intro c d
    rw [subclasses_indexed hp, mem_subclassesOf_iff hp]
    exact Option.bind_eq_some_iff.symm
  nodup_subclasses c := by
    rw [subclasses_indexed hp]
    exact (nodup_class_ids hp).sublist (List.filter_sublist.map _)
  count_subinterfaces c d := by
    have hlist : p.indexed.subinterfaces c = p.listingInterface true c := listingInterface_indexed hp true c
    rw [hlist]
    exact count_listingInterface hp true c d
  count_implementors c d := by
    have hlist : p.indexed.implementors c = p.listingInterface false c := listingInterface_indexed hp false c
    rw [hlist]
    exact count_listingInterface hp false c d
  classNamed?_eq_some_iff := classNamed?_iff hp

end Program

namespace IndexedProgram

/-- Whatever index a checked program had before, a new one says what the program says: the machine that
enters class after class and statement after statement makes it, and each table is faithful. -/
theorem faithful_reindex {p : IndexedProgram} (hp : p.validate = .ok ()) :
    p.fillIndex = .ok p.reindex.index ∧ p.reindex.Faithful :=
  ⟨Program.fillIndex_eq_of_validate hp, Program.faithful_indexed hp⟩

/-- With the index of another program, the small program has no uses and the sharing one no subtypes. A new
index gives `a` its call, its store and its load, and `I` the class `A` that lists it twice. -/
theorem faithful_reindex_stale :
    let small : IndexedProgram := ⟨Sample.program, Program.empty.makeIndex⟩
    let sharing : IndexedProgram := ⟨Sample.sharing, Program.empty.makeIndex⟩
    small.validate = .ok () ∧ small.uses 0 = .none ∧ small.reindex.Faithful ∧
    small.reindex.uses 0 = ⟨[⟨0, 2⟩], [⟨0, 3⟩], [], [], [⟨0, 1⟩]⟩ ∧
    sharing.validate = .ok () ∧ sharing.implementors 0 = [] ∧
    (sharing.reindex.implementors 0).count 2 = 2 ∧ (sharing.reindex.subinterfaces 0).count 1 = 1 ∧
    3 ∈ sharing.reindex.subclasses 2 ∧ sharing.reindex.classNamed? "B" = some 3 := by
  intro small sharing
  have hsmall : small.validate = .ok () := by rfl
  have hsharing : sharing.validate = .ok () := by rfl
  have hfaithful := (faithful_reindex hsharing).2
  refine ⟨hsmall, by rfl, (faithful_reindex hsmall).2, by decide, hsharing, by rfl, ?_, ?_, ?_, ?_⟩
  · rw [hfaithful.count_implementors]
    decide
  · rw [hfaithful.count_subinterfaces]
    decide
  · exact hfaithful.mem_subclasses.2 rfl
  · exact hfaithful.classNamed?_eq_some_iff.2 ⟨_, rfl, rfl⟩

end IndexedProgram

end PointsTo
