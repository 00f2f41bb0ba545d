import Mathlib.Logic.Relation
import PointsTo.CallGraph.ByHierarchy
import PointsTo.Proofs.Search
import PointsTo.Proofs.Validity

/-!
# The classes below a class

`isSubtype` walks up through direct supertypes, `subtypes` down through the three tables of the index.
In a checked program the tables invert the direct supertypes (`mem_directSubtypes_iff`), and a search
downward has rounds enough to meet everything there is below its start, so whatever climbs to a class
is among the classes below it (`mem_subtypes_of_isSubtype`).
-/

namespace PointsTo

namespace Program

variable {p : Program} {c d sup : ClassId}

/-! ## Direct supertypes of a checked program -/

theorem checkClass_of_validate (hp : p.validate = .ok ()) {decl : ClassDecl}
    (hc : p.class? c = some decl) : p.checkClass decl c = .ok () := by
  obtain ⟨h, -⟩ := validate_eq_ok_iff.1 hp
  exact h (decl, c) (List.mem_zipIdx_iff_getElem?.2 (by simpa [class?] using hc))

/-- A class stands at the position of its id. -/
theorem class_id_of_validate (hp : p.validate = .ok ()) {decl : ClassDecl}
    (hc : p.class? c = some decl) : decl.id = c := by
  have h := checkClass_of_validate hp hc
  simp only [checkClass, andThen_eq_ok_iff, require_eq_ok_iff] at h
  simpa using h.1

theorem mem_supertypes_iff :
    sup ∈ p.supertypes c ↔ ∃ decl, p.class? c = some decl ∧ sup ∈ decl.supertypes := by
  rw [supertypes]
  cases p.class? c <;> simp

/-- Supertypes are classes of the program. -/
theorem lt_of_mem_supertypes (hp : p.validate = .ok ()) (h : sup ∈ p.supertypes c) :
    sup < p.classes.size := by
  obtain ⟨decl, hc, hsup⟩ := mem_supertypes_iff.1 h
  have hcheck := checkClass_of_validate hp hc
  simp only [checkClass, andThen_eq_ok_iff, forM_eq_ok_iff, require_eq_ok_iff] at hcheck
  simpa using hcheck.2.2.1 sup hsup

theorem mem_classes_iff (hp : p.validate = .ok ()) {decl : ClassDecl} :
    decl ∈ p.classes.toList ↔ p.class? decl.id = some decl := by
  constructor
  · intro h
    obtain ⟨i, hi⟩ := List.getElem?_of_mem h
    have hc : p.class? i = some decl := by simpa [class?] using hi
    rwa [class_id_of_validate hp hc]
  · intro h
    exact List.mem_of_getElem? (by simpa [class?] using h)

theorem mem_subclassesOf_iff (hp : p.validate = .ok ()) :
    c ∈ p.subclassesOf sup ↔ ∃ decl, p.class? c = some decl ∧ decl.superclass = some sup := by
  simp only [subclassesOf, List.mem_map, List.mem_filter, decide_eq_true_eq, mem_classes_iff hp]
  constructor
  · rintro ⟨decl, ⟨hc, hsup⟩, rfl⟩
    exact ⟨decl, hc, hsup⟩
  · rintro ⟨decl, hc, hsup⟩
    obtain rfl := class_id_of_validate hp hc
    exact ⟨decl, ⟨hc, hsup⟩, rfl⟩

theorem mem_listingInterface_iff (hp : p.validate = .ok ()) {interfaces : Bool} :
    c ∈ p.listingInterface interfaces sup ↔
      ∃ decl, p.class? c = some decl ∧ decl.isInterface = interfaces ∧ sup ∈ decl.interfaces := by
  simp only [listingInterface, List.mem_flatMap, List.mem_map, List.mem_filter, decide_eq_true_eq,
    mem_classes_iff hp]
  constructor
  · rintro ⟨decl, ⟨hc, hkind⟩, _, ⟨hsup, rfl⟩, rfl⟩
    exact ⟨decl, hc, hkind, hsup⟩
  · rintro ⟨decl, hc, hkind, hsup⟩
    obtain rfl := class_id_of_validate hp hc
    exact ⟨decl, ⟨hc, hkind⟩, sup, ⟨hsup, rfl⟩, rfl⟩

/-- The tables of the index together invert the direct supertypes. -/
theorem mem_directSubtypes_iff (hp : p.validate = .ok ()) :
    c ∈ p.indexed.directSubtypes sup ↔ sup ∈ p.supertypes c := by
  have htables : c ∈ p.indexed.directSubtypes sup ↔ sup < p.classes.size ∧
      (c ∈ p.subclassesOf sup ∨ c ∈ p.listingInterface false sup ∨ c ∈ p.listingInterface true sup) := by
    simp only [IndexedProgram.directSubtypes, IndexedProgram.subclasses, IndexedProgram.implementors,
      IndexedProgram.subinterfaces, indexed, makeIndex, List.getElem?_toArray, List.getElem?_map,
      List.mem_append, or_assoc]
    by_cases hlt : sup < p.classes.size
    · simp [hlt]
    · simp [hlt]
  rw [htables, mem_subclassesOf_iff hp, mem_listingInterface_iff hp, mem_listingInterface_iff hp,
    mem_supertypes_iff]
  constructor
  · rintro ⟨-, ⟨decl, hc, hsup⟩ | ⟨decl, hc, -, hsup⟩ | ⟨decl, hc, -, hsup⟩⟩
    · exact ⟨decl, hc, List.mem_append_left _ (by simp [hsup])⟩
    · exact ⟨decl, hc, List.mem_append_right _ hsup⟩
    · exact ⟨decl, hc, List.mem_append_right _ hsup⟩
  · rintro ⟨decl, hc, hsup⟩
    refine ⟨lt_of_mem_supertypes hp (mem_supertypes_iff.2 ⟨decl, hc, hsup⟩), ?_⟩
    rcases List.mem_append.1 hsup with hsup | hsup
    · exact Or.inl ⟨decl, hc, Option.mem_toList.1 hsup⟩
    · -- a class that lists the interface implements it, an interface that does extends it
      cases hkind : decl.isInterface with
      | false => exact Or.inr (Or.inl ⟨decl, hc, hkind, hsup⟩)
      | true => exact Or.inr (Or.inr ⟨decl, hc, hkind, hsup⟩)

theorem lt_of_mem_directSubtypes (hp : p.validate = .ok ()) (h : d ∈ p.indexed.directSubtypes c) :
    d < p.classes.size := by
  obtain ⟨decl, hdecl, -⟩ := mem_supertypes_iff.1 ((mem_directSubtypes_iff hp).1 h)
  exact (Array.getElem?_eq_some_iff.1 hdecl).1

/-! ## The search downward -/

/-- A round of the search downward keeps the search going, within the classes of the program. -/
theorem search_round (hp : p.validate = .ok ()) {met queue rest : List ClassId}
    (h : Search p.classes.size (fun c d => d ∈ p.indexed.directSubtypes c) met queue)
    (hqueue : ∀ c ∈ queue, c < p.classes.size)
    (hround : queue.dropWhile (· ∈ met) = c :: rest) :
    Search p.classes.size (fun c d => d ∈ p.indexed.directSubtypes c) (met ++ [c])
        (rest ++ p.indexed.directSubtypes c) ∧
      ∀ d ∈ rest ++ p.indexed.directSubtypes c, d < p.classes.size := by
  have hrest := Search.rest_subset_of_round hround
  constructor
  · exact h.round hround (hqueue c (hrest List.mem_cons_self))
      (List.subset_append_left rest (p.indexed.directSubtypes c))
      fun _ hd => List.mem_append_right _ hd
  · intro d hd
    rcases List.mem_append.1 hd with hd | hd
    · exact hqueue d (hrest (List.mem_cons_of_mem c hd))
    · exact lt_of_mem_directSubtypes hp hd

/-- A search downward meets whatever is queued, and whatever is directly below something it meets:
there are more rounds than classes that have not been met. -/
theorem closed_collectSubtypes (hp : p.validate = .ok ()) {rounds : Nat} {met queue : List ClassId}
    (h : Search p.classes.size (fun c d => d ∈ p.indexed.directSubtypes c) met queue)
    (hqueue : ∀ c ∈ queue, c < p.classes.size) (hrounds : p.classes.size < rounds + met.length) :
    (∀ c, c ∈ met ∨ c ∈ queue → c ∈ p.indexed.collectSubtypes rounds met queue) ∧
      ∀ c ∈ p.indexed.collectSubtypes rounds met queue, ∀ d ∈ p.indexed.directSubtypes c,
        d ∈ p.indexed.collectSubtypes rounds met queue := by
  induction rounds generalizing met queue with
  | zero =>
    have := h.length_le
    omega
  | succ n ih =>
    rw [IndexedProgram.collectSubtypes]
    split
    · rename_i hdone
      exact h.closed hdone
    · rename_i c rest hround
      obtain ⟨hnext, hqueue'⟩ := search_round hp h hqueue hround
      obtain ⟨hmet, hclosed⟩ := ih hnext hqueue'
        (by rw [List.length_append, List.length_singleton]; omega)
      refine ⟨fun d hd => hmet d ?_, hclosed⟩
      exact (Search.kept_of_round hround hd).imp id (List.mem_append_left _)

/-- A search downward for which there were rounds enough is not changed by one more. -/
theorem collectSubtypes_succ (hp : p.validate = .ok ()) {rounds : Nat} {met queue : List ClassId}
    (h : Search p.classes.size (fun c d => d ∈ p.indexed.directSubtypes c) met queue)
    (hqueue : ∀ c ∈ queue, c < p.classes.size) (hrounds : p.classes.size < rounds + met.length) :
    p.indexed.collectSubtypes (rounds + 1) met queue = p.indexed.collectSubtypes rounds met queue := by
  induction rounds generalizing met queue with
  | zero =>
    have := h.length_le
    omega
  | succ n ih =>
    unfold IndexedProgram.collectSubtypes
    split
    · rfl
    · rename_i c rest hround
      obtain ⟨hnext, hqueue'⟩ := search_round hp h hqueue hround
      exact ih hnext hqueue' (by rw [List.length_append, List.length_singleton]; omega)

/-- A search downward meets nothing twice. -/
theorem nodup_collectSubtypes {p : IndexedProgram} {rounds : Nat} {met queue : List ClassId}
    (h : met.Nodup) : (p.collectSubtypes rounds met queue).Nodup := by
  induction rounds generalizing met queue with
  | zero => exact h
  | succ n ih =>
    rw [IndexedProgram.collectSubtypes]
    split
    · exact h
    · rename_i c rest hround
      have hnew := Search.not_met_of_round hround
      exact ih (List.nodup_append.2 ⟨h, List.pairwise_singleton _ _, by
        rintro a ha b hb rfl
        exact hnew (List.mem_singleton.1 hb ▸ ha)⟩)

/-- What holds of the classes where a search downward starts, and goes over to direct subtypes, holds of
every class that the search meets. -/
theorem of_mem_collectSubtypes {p : IndexedProgram} {P : ClassId → Prop}
    (hnext : ∀ c, P c → ∀ d ∈ p.directSubtypes c, P d) {rounds : Nat} {met queue : List ClassId}
    (hmet : ∀ c ∈ met, P c) (hqueue : ∀ c ∈ queue, P c) :
    ∀ c ∈ p.collectSubtypes rounds met queue, P c := by
  induction rounds generalizing met queue with
  | zero => exact hmet
  | succ n ih =>
    rw [IndexedProgram.collectSubtypes]
    split
    · exact hmet
    · rename_i c rest hround
      have hrest : ∀ d ∈ c :: rest, P d := fun d hd =>
        hqueue d (Search.rest_subset_of_round hround hd)
      refine ih ?_ ?_
      · intro d hd
        rcases List.mem_append.1 hd with hd | hd
        · exact hmet d hd
        · exact List.mem_singleton.1 hd ▸ hrest c List.mem_cons_self
      · intro d hd
        rcases List.mem_append.1 hd with hd | hd
        · exact hrest d (List.mem_cons_of_mem c hd)
        · exact hnext c (hrest c List.mem_cons_self) d hd

/-- A class is among the classes below itself, and whatever is directly below one of them is. -/
theorem closed_subtypes (hp : p.validate = .ok ()) (hsup : sup < p.classes.size) :
    sup ∈ p.indexed.subtypes sup ∧
      ∀ c ∈ p.indexed.subtypes sup, ∀ d, c ∈ p.supertypes d → d ∈ p.indexed.subtypes sup := by
  have hsearch : Search p.classes.size (fun c d => d ∈ p.indexed.directSubtypes c) [] [sup] := .start
  have hqueue : ∀ c ∈ [sup], c < p.classes.size := by simpa using hsup
  obtain ⟨hstart, hclosed⟩ := closed_collectSubtypes hp hsearch hqueue (Nat.lt_succ_self _)
  refine ⟨hstart sup (Or.inr List.mem_cons_self), ?_⟩
  intro c hc d hd
  exact hclosed c hc d ((mem_directSubtypes_iff hp).2 hd)

/-- A climb is a path through direct supertypes. -/
theorem path_of_climbs {steps : Nat} (h : p.climbs sup steps c = true) :
    Relation.ReflTransGen (fun c d => d ∈ p.supertypes c) c sup := by
  induction steps generalizing c with
  | zero => exact beq_iff_eq.1 h ▸ .refl
  | succ n ih =>
    rw [climbs, Bool.or_eq_true, List.any_eq_true] at h
    rcases h with h | ⟨d, hd, h⟩
    · exact beq_iff_eq.1 h ▸ .refl
    · exact .head hd (ih h)

/-- Whatever climbs to a class is found below it. -/
theorem mem_subtypes_of_isSubtype (hp : p.validate = .ok ()) (hsup : sup < p.classes.size)
    (h : p.isSubtype c sup = true) : c ∈ p.indexed.subtypes sup := by
  obtain ⟨hstart, hclosed⟩ := closed_subtypes hp hsup
  have hpath := path_of_climbs h
  clear h
  induction hpath using Relation.ReflTransGen.head_induction_on with
  | refl => exact hstart
  | head hstep _ ih => exact hclosed _ ih _ hstep

end Program

end PointsTo
