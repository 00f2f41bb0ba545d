/-!
# Finite sets of ids

An id is a position in some table, so a natural number. An `IdSet` lists its members in strictly
increasing order; that order is part of the type, so two sets with the same members are equal
(`IdSet.ext_mem`) and every listing of a set is the same on every run.

A number is looked for where it would have to stand (`found`). Union, difference and the search for a
common member walk both lists once. `put` and `absorb` say whether the set has become larger. Each
operation has one lemma that says what its members are: `mem_insert`, `mem_union`, `mem_diff`,
`mem_ofList`.
-/

namespace PointsTo

/-- A finite set of ids, listed in strictly increasing order. -/
structure IdSet where
  /-- The members, smallest first. -/
  toList : List Nat
  /-- No member is listed twice or out of order. -/
  sorted : toList.Pairwise (· < ·)
deriving DecidableEq

namespace IdSet

/-! ## Walks over increasing lists -/

/-- Does `x` stand where an increasing list would have it? -/
def found (x : Nat) (ys : List Nat) : Bool := (ys.dropWhile (· < x)).head? = some x

/-- `x` put in its place in an increasing list, and whether it was missing there. A number beyond the
last one goes to the end without a search. -/
def insertInto (x : Nat) (ys : List Nat) : Bool × List Nat :=
  match ys.getLast? with
  | none => (true, [x])
  | some last =>
    if last < x then (true, ys ++ [x])
    else if found x ys then (false, ys)
    else (true, ys.takeWhile (· < x) ++ x :: ys.dropWhile (· < x))

/-- One head of a merge: `x` is placed among `ys`, and `rest` merges what follows `x`. -/
def mergeHead (x : Nat) (rest : List Nat → List Nat) : List Nat → List Nat
  | [] => x :: rest []
  | y :: ys =>
    if x < y then x :: rest (y :: ys)
    else if y < x then y :: mergeHead x rest ys
    else x :: rest ys

/-- The members of two increasing lists, in one increasing list. -/
def merge : List Nat → List Nat → List Nat
  | [], ys => ys
  | x :: xs, ys => mergeHead x (fun zs => merge xs zs) ys

/-- The first increasing list with the members of the second, and whether it has become longer. Nothing
is merged if either is empty. -/
def mergeInto (xs ys : List Nat) : Bool × List Nat :=
  if ys.isEmpty then (false, xs)
  else if xs.isEmpty then (true, ys)
  else (xs.length < (merge xs ys).length, merge xs ys)

/-- The members of the first increasing list that the second lacks. -/
def without : List Nat → List Nat → List Nat
  | [], _ => []
  | x :: xs, ys =>
    let later := ys.dropWhile (· < x)
    if later.head? = some x then without xs later else x :: without xs later

/-- Do two increasing lists share a member? -/
def common : List Nat → List Nat → Bool
  | [], _ => false
  | x :: xs, ys =>
    let later := ys.dropWhile (· < x)
    later.head? = some x || common xs later

/-- `x` put before the first number of a list that is not below it. -/
def place (x : Nat) : List Nat → List Nat
  | [] => [x]
  | y :: ys => if x ≤ y then x :: y :: ys else y :: place x ys

/-- The numbers of a list, smallest first. -/
def sort (xs : List Nat) : List Nat := xs.foldr place []

/-- A list without its repetitions of the number just before. -/
def dropRepeats : List Nat → List Nat
  | [] => []
  | [x] => [x]
  | x :: y :: ys => if x = y then dropRepeats (y :: ys) else x :: dropRepeats (y :: ys)

theorem mem_dropWhile_lt {x z : Nat} {ys : List Nat} (h : ys.Pairwise (· < ·)) (hz : x ≤ z) :
    z ∈ ys.dropWhile (· < x) ↔ z ∈ ys := by
  induction ys with
  | nil => simp
  | cons y ys ih =>
    have h' := List.pairwise_cons.1 h
    by_cases hy : y < x
    · rw [List.dropWhile_cons_of_pos (by simpa using hy), ih h'.2, List.mem_cons]
      constructor
      · exact Or.inr
      · rintro (rfl | hmem)
        · omega
        · exact hmem
    · rw [List.dropWhile_cons_of_neg (by simpa using hy)]

theorem head_dropWhile_lt {x : Nat} {ys : List Nat} (h : ys.Pairwise (· < ·)) :
    (ys.dropWhile (· < x)).head? = some x ↔ x ∈ ys := by
  induction ys with
  | nil => simp
  | cons y ys ih =>
    have h' := List.pairwise_cons.1 h
    by_cases hy : y < x
    · rw [List.dropWhile_cons_of_pos (by simpa using hy), ih h'.2, List.mem_cons]
      constructor
      · exact Or.inr
      · rintro (rfl | hmem)
        · omega
        · exact hmem
    · rw [List.dropWhile_cons_of_neg (by simpa using hy), List.mem_cons]
      constructor
      · intro he
        exact Or.inl (by simpa using he.symm)
      · rintro (rfl | hmem)
        · rfl
        · exact absurd (h'.1 x hmem) hy

theorem found_iff {x : Nat} {ys : List Nat} (h : ys.Pairwise (· < ·)) : found x ys = true ↔ x ∈ ys := by
  rw [found, decide_eq_true_eq, head_dropWhile_lt h]

theorem lt_of_mem_takeWhile_lt {x z : Nat} {ys : List Nat} (hz : z ∈ ys.takeWhile (· < x)) : z < x := by
  have h := List.all_eq_true.1 (List.all_takeWhile (p := (· < x)) (l := ys)) z hz
  simpa using h

/-- A number that is missing lies below everything that is not below it. -/
theorem lt_of_mem_dropWhile_lt {x z : Nat} {ys : List Nat} (h : ys.Pairwise (· < ·)) (hx : x ∉ ys)
    (hz : z ∈ ys.dropWhile (· < x)) : x < z := by
  induction ys with
  | nil => simp at hz
  | cons y ys ih =>
    have h' := List.pairwise_cons.1 h
    by_cases hy : y < x
    · rw [List.dropWhile_cons_of_pos (by simpa using hy)] at hz
      exact ih h'.2 (fun hmem => hx (List.mem_cons_of_mem y hmem)) hz
    · rw [List.dropWhile_cons_of_neg (by simpa using hy)] at hz
      have hxy : x < y := by
        have hne : x ≠ y := fun he => hx (he ▸ List.mem_cons_self)
        omega
      rcases List.mem_cons.1 hz with rfl | hz
      · exact hxy
      · exact Nat.lt_trans hxy (h'.1 z hz)

theorem le_getLast {z last : Nat} {ys : List Nat} (h : ys.Pairwise (· < ·))
    (hlast : ys.getLast? = some last) (hz : z ∈ ys) : z ≤ last := by
  obtain ⟨init, rfl⟩ := List.getLast?_eq_some_iff.1 hlast
  rcases List.mem_append.1 hz with hz | hz
  · exact Nat.le_of_lt ((List.pairwise_append.1 h).2.2 z hz last (List.mem_singleton.2 rfl))
  · exact Nat.le_of_eq (List.mem_singleton.1 hz)

/-- What putting `x` into an increasing list amounts to, whichever way is taken. -/
theorem insertInto_cases {x : Nat} {ys : List Nat} (h : ys.Pairwise (· < ·)) :
    x ∈ ys ∧ insertInto x ys = (false, ys) ∨
    x ∉ ys ∧ ∃ below above, ys = below ++ above ∧ (∀ z ∈ below, z < x) ∧ (∀ z ∈ above, x < z) ∧
      insertInto x ys = (true, below ++ x :: above) := by
  unfold insertInto
  split
  · rename_i hlast
    obtain rfl := List.getLast?_eq_none_iff.1 hlast
    exact Or.inr ⟨List.not_mem_nil, [], [], rfl, nofun, nofun, rfl⟩
  rename_i last hlast
  split
  · rename_i hx
    have hbelow : ∀ z ∈ ys, z < x := fun z hz => Nat.lt_of_le_of_lt (le_getLast h hlast hz) hx
    exact Or.inr ⟨fun hmem => Nat.lt_irrefl x (hbelow x hmem), ys, [], (List.append_nil ys).symm, hbelow,
      nofun, rfl⟩
  split
  · rename_i hfound
    exact Or.inl ⟨(found_iff h).1 hfound, rfl⟩
  · rename_i hfound
    have hx : x ∉ ys := fun hmem => hfound ((found_iff h).2 hmem)
    exact Or.inr ⟨hx, _, _, List.takeWhile_append_dropWhile.symm, fun z => lt_of_mem_takeWhile_lt,
      fun z => lt_of_mem_dropWhile_lt h hx, rfl⟩

theorem mem_insertInto {x z : Nat} {ys : List Nat} (h : ys.Pairwise (· < ·)) :
    z ∈ (insertInto x ys).2 ↔ z = x ∨ z ∈ ys := by
  rcases insertInto_cases h (x := x) with ⟨hx, he⟩ | ⟨-, below, above, rfl, -, -, he⟩
  · rw [he]
    exact ⟨Or.inr, fun hz => hz.elim (fun hzx => hzx ▸ hx) id⟩
  · rw [he, List.mem_append, List.mem_cons, List.mem_append, or_left_comm]

theorem sorted_insertInto {x : Nat} {ys : List Nat} (h : ys.Pairwise (· < ·)) :
    (insertInto x ys).2.Pairwise (· < ·) := by
  rcases insertInto_cases h (x := x) with ⟨-, he⟩ | ⟨-, below, above, rfl, hbelow, habove, he⟩
  · rw [he]
    exact h
  · obtain ⟨h₁, h₂, h₁₂⟩ := List.pairwise_append.1 h
    rw [he]
    refine List.pairwise_append.2 ⟨h₁, List.pairwise_cons.2 ⟨habove, h₂⟩, fun a ha b hb => ?_⟩
    rcases List.mem_cons.1 hb with rfl | hb
    · exact hbelow a ha
    · exact h₁₂ a ha b hb

theorem insertInto_fst_iff {x : Nat} {ys : List Nat} (h : ys.Pairwise (· < ·)) :
    (insertInto x ys).1 = true ↔ x ∉ ys := by
  rcases insertInto_cases h (x := x) with ⟨hx, he⟩ | ⟨hx, _, _, -, -, -, he⟩
  · simp [he, hx]
  · simp [he, hx]

theorem mem_mergeHead {x z : Nat} {rest : List Nat → List Nat} {xs ys : List Nat}
    (hrest : ∀ zs, z ∈ rest zs ↔ z ∈ xs ∨ z ∈ zs) :
    z ∈ mergeHead x rest ys ↔ z = x ∨ z ∈ xs ∨ z ∈ ys := by
  induction ys with
  | nil => simp [mergeHead, hrest]
  | cons y ys ih =>
    unfold mergeHead
    split
    · simp [hrest]
    · split
      · simp only [List.mem_cons, ih]; grind
      · have : x = y := by omega
        simp only [List.mem_cons, hrest]; grind

theorem mem_merge {z : Nat} {xs ys : List Nat} : z ∈ merge xs ys ↔ z ∈ xs ∨ z ∈ ys := by
  induction xs generalizing ys with
  | nil => simp [merge]
  | cons x xs ih => simp [merge, mem_mergeHead fun _ => ih, or_assoc]

theorem sorted_mergeHead {x : Nat} {rest : List Nat → List Nat} {xs ys : List Nat}
    (hx : ∀ z ∈ xs, x < z) (hmem : ∀ z zs, z ∈ rest zs ↔ z ∈ xs ∨ z ∈ zs)
    (hrest : ∀ zs : List Nat, zs.Pairwise (· < ·) → (rest zs).Pairwise (· < ·))
    (hys : ys.Pairwise (· < ·)) : (mergeHead x rest ys).Pairwise (· < ·) := by
  induction ys with
  | nil =>
    refine List.pairwise_cons.2 ⟨fun z hz => ?_, hrest _ List.Pairwise.nil⟩
    exact hx z (by simpa using (hmem z []).1 hz)
  | cons y ys ih =>
    have hy := List.pairwise_cons.1 hys
    unfold mergeHead
    split
    · rename_i hxy
      refine List.pairwise_cons.2 ⟨fun z hz => ?_, hrest _ hys⟩
      rcases (hmem z _).1 hz with hz | hz
      · exact hx z hz
      · rcases List.mem_cons.1 hz with rfl | hz
        · exact hxy
        · exact Nat.lt_trans hxy (hy.1 z hz)
    · split
      · rename_i hyx
        refine List.pairwise_cons.2 ⟨fun z hz => ?_, ih hy.2⟩
        rcases (mem_mergeHead (hmem z)).1 hz with rfl | hz | hz
        · exact hyx
        · exact Nat.lt_trans hyx (hx z hz)
        · exact hy.1 z hz
      · have hxy : x = y := by omega
        refine List.pairwise_cons.2 ⟨fun z hz => ?_, hrest _ hy.2⟩
        rcases (hmem z _).1 hz with hz | hz
        · exact hx z hz
        · exact hxy ▸ hy.1 z hz

theorem sorted_merge {xs ys : List Nat} (hx : xs.Pairwise (· < ·)) (hy : ys.Pairwise (· < ·)) :
    (merge xs ys).Pairwise (· < ·) := by
  induction xs generalizing ys with
  | nil => exact hy
  | cons x xs ih =>
    have h := List.pairwise_cons.1 hx
    exact sorted_mergeHead h.1 (fun z zs => mem_merge) (fun zs hzs => ih h.2 hzs) hy

theorem nodup_of_sorted {xs : List Nat} (h : xs.Pairwise (· < ·)) : xs.Nodup :=
  h.imp Nat.ne_of_lt

/-- A merge is longer than the first list exactly if the second brings something new. -/
theorem length_lt_merge_iff {xs ys : List Nat} (hx : xs.Pairwise (· < ·)) (hy : ys.Pairwise (· < ·)) :
    xs.length < (merge xs ys).length ↔ ∃ y ∈ ys, y ∉ xs := by
  constructor
  · intro hlt
    refine Classical.byContradiction fun hnone => Nat.not_le_of_lt hlt ?_
    refine (nodup_of_sorted (sorted_merge hx hy)).length_le_of_subset fun z hz => ?_
    rcases mem_merge.1 hz with hz | hz
    · exact hz
    · exact Classical.byContradiction fun hzx => hnone ⟨z, hz, hzx⟩
  · rintro ⟨y, hys, hyx⟩
    have hnodup : (y :: xs).Nodup := List.nodup_cons.2 ⟨hyx, nodup_of_sorted hx⟩
    refine hnodup.length_le_of_subset fun z hz => mem_merge.2 ?_
    rcases List.mem_cons.1 hz with rfl | hz
    · exact Or.inr hys
    · exact Or.inl hz

/-- Whether anything is merged or not, the outcome is the merge. -/
theorem mergeInto_snd {xs ys : List Nat} (hx : xs.Pairwise (· < ·)) (hy : ys.Pairwise (· < ·)) :
    (mergeInto xs ys).2.Pairwise (· < ·) ∧ ∀ z, z ∈ (mergeInto xs ys).2 ↔ z ∈ xs ∨ z ∈ ys := by
  unfold mergeInto
  split
  · rename_i h
    simp [List.isEmpty_iff.1 h, hx]
  split
  · rename_i h
    simp [List.isEmpty_iff.1 h, hy]
  · exact ⟨sorted_merge hx hy, fun z => mem_merge⟩

theorem mergeInto_fst_iff {xs ys : List Nat} (hx : xs.Pairwise (· < ·)) (hy : ys.Pairwise (· < ·)) :
    (mergeInto xs ys).1 = true ↔ ∃ y ∈ ys, y ∉ xs := by
  unfold mergeInto
  split
  · rename_i h
    simp [List.isEmpty_iff.1 h]
  rename_i hys
  split
  · rename_i h
    obtain ⟨y, hy⟩ := List.isEmpty_eq_false_iff_exists_mem.1 (Bool.eq_false_iff.2 hys)
    simp only [List.isEmpty_iff.1 h, true_iff]
    exact ⟨y, hy, List.not_mem_nil⟩
  · simpa using length_lt_merge_iff hx hy

theorem mem_without {z : Nat} {xs ys : List Nat} (hx : xs.Pairwise (· < ·))
    (hy : ys.Pairwise (· < ·)) : z ∈ without xs ys ↔ z ∈ xs ∧ z ∉ ys := by
  induction xs generalizing ys with
  | nil => simp [without]
  | cons x xs ih =>
    have h := List.pairwise_cons.1 hx
    have hd := hy.sublist (List.dropWhile_sublist (· < x))
    have later (hz : z ∈ xs) : z ∈ ys.dropWhile (· < x) ↔ z ∈ ys :=
      mem_dropWhile_lt hy (Nat.le_of_lt (h.1 z hz))
    simp only [without]
    split
    · rename_i hxy
      rw [head_dropWhile_lt hy] at hxy
      rw [ih h.2 hd]
      grind
    · rename_i hxy
      rw [head_dropWhile_lt hy] at hxy
      rw [List.mem_cons, ih h.2 hd]
      grind

theorem sorted_without {xs ys : List Nat} (hx : xs.Pairwise (· < ·)) :
    (without xs ys).Pairwise (· < ·) := by
  have sub : ∀ (xs ys : List Nat), (without xs ys).Sublist xs := by
    intro xs
    induction xs with
    | nil => intro ys; simp [without]
    | cons x xs ih =>
      intro ys
      simp only [without]
      split
      · exact (ih _).cons _
      · exact (ih _).cons_cons _
  exact hx.sublist (sub xs ys)

theorem common_iff {xs ys : List Nat} (hx : xs.Pairwise (· < ·)) (hy : ys.Pairwise (· < ·)) :
    common xs ys = true ↔ ∃ z ∈ xs, z ∈ ys := by
  induction xs generalizing ys with
  | nil => simp [common]
  | cons x xs ih =>
    have h := List.pairwise_cons.1 hx
    have hd := hy.sublist (List.dropWhile_sublist (· < x))
    -- what was passed over is below everything still to come
    have later : (∃ z ∈ xs, z ∈ ys.dropWhile (· < x)) ↔ ∃ z ∈ xs, z ∈ ys :=
      exists_congr fun z => and_congr_right fun hz => mem_dropWhile_lt hy (Nat.le_of_lt (h.1 z hz))
    simp only [common, Bool.or_eq_true, decide_eq_true_eq, head_dropWhile_lt hy, ih h.2 hd, later,
      List.mem_cons, or_and_right, exists_or, exists_eq_left]

theorem perm_place (x : Nat) (ys : List Nat) : (place x ys).Perm (x :: ys) := by
  induction ys with
  | nil => exact .refl _
  | cons y ys ih =>
    unfold place
    split
    · exact .refl _
    · exact (ih.cons y).trans (.swap x y ys)

theorem mem_place {x z : Nat} {ys : List Nat} : z ∈ place x ys ↔ z = x ∨ z ∈ ys :=
  (perm_place x ys).mem_iff.trans List.mem_cons

theorem sorted_place {x : Nat} {ys : List Nat} (h : ys.Pairwise (· ≤ ·)) :
    (place x ys).Pairwise (· ≤ ·) := by
  induction ys with
  | nil => simp [place]
  | cons y ys ih =>
    have h' := List.pairwise_cons.1 h
    unfold place
    split
    · rename_i hxy
      refine List.pairwise_cons.2 ⟨fun z hz => ?_, h⟩
      rcases List.mem_cons.1 hz with rfl | hz
      · exact hxy
      · exact Nat.le_trans hxy (h'.1 z hz)
    · rename_i hxy
      refine List.pairwise_cons.2 ⟨fun z hz => ?_, ih h'.2⟩
      rcases mem_place.1 hz with rfl | hz
      · omega
      · exact h'.1 z hz

theorem perm_sort (xs : List Nat) : (sort xs).Perm xs := by
  induction xs with
  | nil => exact .refl _
  | cons x xs ih => exact (perm_place x _).trans (ih.cons x)

theorem mem_sort {z : Nat} {xs : List Nat} : z ∈ sort xs ↔ z ∈ xs := (perm_sort xs).mem_iff

theorem sorted_sort (xs : List Nat) : (sort xs).Pairwise (· ≤ ·) := by
  induction xs with
  | nil => exact List.Pairwise.nil
  | cons x xs ih => exact sorted_place ih

theorem sorted_sort_of_nodup {xs : List Nat} (h : xs.Nodup) : (sort xs).Pairwise (· < ·) :=
  ((sorted_sort xs).and ((perm_sort xs).nodup_iff.2 h)).imp fun hab => Nat.lt_of_le_of_ne hab.1 hab.2

theorem mem_dropRepeats {z : Nat} {xs : List Nat} : z ∈ dropRepeats xs ↔ z ∈ xs := by
  fun_induction dropRepeats xs with
  | case1 => rfl
  | case2 => rfl
  | case3 x xs ih => simpa using ih
  | case4 x y ys hxy ih => rw [List.mem_cons, ih, List.mem_cons (a := z) (b := x)]

theorem sorted_dropRepeats {xs : List Nat} (h : xs.Pairwise (· ≤ ·)) :
    (dropRepeats xs).Pairwise (· < ·) := by
  fun_induction dropRepeats xs with
  | case1 => exact List.Pairwise.nil
  | case2 x => exact List.pairwise_singleton _ x
  | case3 x xs ih => exact ih (List.pairwise_cons.1 h).2
  | case4 x y ys hxy ih =>
    have hx := List.pairwise_cons.1 h
    refine List.pairwise_cons.2 ⟨fun z hz => ?_, ih hx.2⟩
    have hy : y ≤ z := by
      rcases List.mem_cons.1 (mem_dropRepeats.1 hz) with rfl | hz
      · exact Nat.le_refl _
      · exact (List.pairwise_cons.1 hx.2).1 z hz
    have hle := hx.1 y List.mem_cons_self
    omega

/-! ## The sets -/

instance : Membership Nat IdSet := ⟨fun s x => x ∈ s.toList⟩

instance (x : Nat) (s : IdSet) : Decidable (x ∈ s) := inferInstanceAs (Decidable (x ∈ s.toList))

/-- The set without members. -/
def empty : IdSet := ⟨[], .nil⟩

instance : EmptyCollection IdSet := ⟨empty⟩

instance : Inhabited IdSet := ⟨empty⟩

/-- The set of one member. -/
def singleton (x : Nat) : IdSet := ⟨[x], List.pairwise_singleton _ _⟩

/-- The set with `x` added, and whether `x` was missing. -/
def put (s : IdSet) (x : Nat) : Bool × IdSet :=
  ((insertInto x s.toList).1, ⟨(insertInto x s.toList).2, sorted_insertInto s.sorted⟩)

/-- The set with `x` added. -/
def insert (s : IdSet) (x : Nat) : IdSet := (s.put x).2

/-- The set of the members of a list, in any order and with any repetitions. -/
def ofList (xs : List Nat) : IdSet := ⟨dropRepeats (sort xs), sorted_dropRepeats (sorted_sort xs)⟩

/-- The set with all members of `t` added, and whether it has grown. -/
def absorb (s t : IdSet) : Bool × IdSet :=
  ((mergeInto s.toList t.toList).1,
    ⟨(mergeInto s.toList t.toList).2, (mergeInto_snd s.sorted t.sorted).1⟩)

/-- All members of either set. -/
def union (s t : IdSet) : IdSet := (s.absorb t).2

/-- The members of `s` that `t` lacks. -/
def diff (s t : IdSet) : IdSet := ⟨without s.toList t.toList, sorted_without s.sorted⟩

/-- Is `x` a member? -/
def contains (s : IdSet) (x : Nat) : Bool := found x s.toList

/-- Does the set have no member? -/
def isEmpty (s : IdSet) : Bool := s.toList.isEmpty

/-- How many members the set has. -/
def size (s : IdSet) : Nat := s.toList.length

/-- Is every member of `s` one of `t`? A larger set need not be looked through. -/
def isSubset (s t : IdSet) : Bool := s.size ≤ t.size && (s.diff t).isEmpty

/-- Do the sets share a member? -/
def meets (s t : IdSet) : Bool := common s.toList t.toList

/-! ## What the operations hold -/

@[simp] theorem mem_toList {x : Nat} {s : IdSet} : x ∈ s.toList ↔ x ∈ s := Iff.rfl

@[simp] theorem not_mem_empty {x : Nat} : x ∉ (∅ : IdSet) := List.not_mem_nil

@[simp] theorem mem_singleton {x y : Nat} : x ∈ singleton y ↔ x = y := List.mem_singleton

@[simp] theorem mem_insert {x y : Nat} {s : IdSet} : x ∈ s.insert y ↔ x = y ∨ x ∈ s :=
  mem_insertInto s.sorted

@[simp] theorem put_fst_iff {x : Nat} {s : IdSet} : (s.put x).1 = true ↔ x ∉ s :=
  insertInto_fst_iff s.sorted

@[simp] theorem mem_union {x : Nat} {s t : IdSet} : x ∈ s.union t ↔ x ∈ s ∨ x ∈ t :=
  (mergeInto_snd s.sorted t.sorted).2 x

@[simp] theorem absorb_fst_iff {s t : IdSet} : (s.absorb t).1 = true ↔ ∃ x ∈ t, x ∉ s :=
  mergeInto_fst_iff s.sorted t.sorted

@[simp] theorem mem_diff {x : Nat} {s t : IdSet} : x ∈ s.diff t ↔ x ∈ s ∧ x ∉ t :=
  mem_without s.sorted t.sorted

@[simp] theorem contains_iff {x : Nat} {s : IdSet} : s.contains x = true ↔ x ∈ s :=
  found_iff s.sorted

@[simp] theorem mem_ofList {x : Nat} {xs : List Nat} : x ∈ ofList xs ↔ x ∈ xs :=
  mem_dropRepeats.trans mem_sort

@[simp] theorem isEmpty_iff {s : IdSet} : s.isEmpty = true ↔ ∀ x, x ∉ s := by
  rw [isEmpty, List.isEmpty_iff, List.eq_nil_iff_forall_not_mem]
  exact Iff.rfl

theorem size_le_of_subset {s t : IdSet} (h : ∀ x ∈ s, x ∈ t) : s.size ≤ t.size :=
  (nodup_of_sorted s.sorted).length_le_of_subset h

@[simp] theorem isSubset_iff {s t : IdSet} : s.isSubset t = true ↔ ∀ x ∈ s, x ∈ t := by
  have hdiff : (s.diff t).isEmpty = true ↔ ∀ x ∈ s, x ∈ t := by simp
  rw [isSubset, Bool.and_eq_true, decide_eq_true_eq, hdiff]
  exact ⟨And.right, fun h => ⟨size_le_of_subset h, h⟩⟩

@[simp] theorem meets_iff {s t : IdSet} : s.meets t = true ↔ ∃ x ∈ s, x ∈ t :=
  common_iff s.sorted t.sorted

/-- Sets with the same members are the same set. -/
theorem ext_mem {s t : IdSet} (h : ∀ x, x ∈ s ↔ x ∈ t) : s = t := by
  obtain ⟨xs, hxs⟩ := s
  obtain ⟨ys, hys⟩ := t
  suffices xs = ys by subst this; rfl
  replace h : ∀ x, x ∈ xs ↔ x ∈ ys := h
  induction xs generalizing ys with
  | nil =>
    cases ys with
    | nil => rfl
    | cons y ys => simpa using h y
  | cons x xs ih =>
    cases ys with
    | nil => simpa using h x
    | cons y ys =>
      have hx := List.pairwise_cons.1 hxs
      have hy := List.pairwise_cons.1 hys
      have hxy : x = y := by
        have h1 := (h x).1 List.mem_cons_self
        have h2 := (h y).2 List.mem_cons_self
        rcases List.mem_cons.1 h1 with h1 | h1
        · exact h1
        · rcases List.mem_cons.1 h2 with h2 | h2
          · exact h2.symm
          · exact absurd (Nat.lt_trans (hx.1 y h2) (hy.1 x h1)) (Nat.lt_irrefl _)
      subst hxy
      congr 1
      refine ih hx.2 ys hy.2 fun z => ⟨fun hz => ?_, fun hz => ?_⟩
      · rcases List.mem_cons.1 ((h z).1 (List.mem_cons_of_mem _ hz)) with rfl | hz'
        · exact absurd (hx.1 z hz) (Nat.lt_irrefl _)
        · exact hz'
      · rcases List.mem_cons.1 ((h z).2 (List.mem_cons_of_mem _ hz)) with rfl | hz'
        · exact absurd (hy.1 z hz) (Nat.lt_irrefl _)
        · exact hz'

end IdSet

end PointsTo
