import PointsTo.Config.Error
import PointsTo.Proofs.EditRows

/-!
# The name that is closest

The report of an unknown name suggests a valid one. It is the valid name from which the fewest edits lead to
the unknown one, and the first of several (`Text.IsClosest`). That the number of edits is a distance follows
from what it is: no edits leave a text as it is, edits can be taken back, and they can be joined.
-/

namespace PointsTo

namespace Text

/-! ## Edits as a distance -/

theorem editDistance_eq_zero_iff {s t : List Char} : editDistance s t = 0 ↔ s = t := by
  obtain ⟨hedits, hleast⟩ := isLeast_editDistance s t
  constructor
  · intro hzero
    rw [hzero] at hedits
    exact hedits.eq_of_zero
  · rintro rfl
    exact Nat.le_zero.1 (hleast (.done s))

theorem editDistance_le_comm (s t : List Char) : editDistance s t ≤ editDistance t s :=
  (isLeast_editDistance s t).2 (isLeast_editDistance t s).1.symm

theorem editDistance_comm (s t : List Char) : editDistance s t = editDistance t s :=
  Nat.le_antisymm (editDistance_le_comm s t) (editDistance_le_comm t s)

theorem editDistance_triangle (s t u : List Char) :
    editDistance s u ≤ editDistance s t + editDistance t u :=
  (isLeast_editDistance s u).2 ((isLeast_editDistance s t).1.trans (isLeast_editDistance t u).1)

/-! ## The first of the closest -/

/-- Of the candidates, `c` is the first one whose distance to the name is the least. -/
def IsClosest (name : String) (candidates : List String) (c : String) : Prop :=
  ∃ before after, candidates = before ++ c :: after ∧
    (∀ b ∈ before, editDistance name.toList c.toList < editDistance name.toList b.toList) ∧
    ∀ a ∈ after, editDistance name.toList c.toList ≤ editDistance name.toList a.toList

variable {name c d : String} {candidates : List String}

theorem isClosest_singleton : IsClosest name [c] c := ⟨[], [], rfl, by simp, by simp⟩

/-- A candidate in front that is as close as the closest one takes its place. -/
theorem IsClosest.cons_le (h : IsClosest name candidates d)
    (hle : editDistance name.toList c.toList ≤ editDistance name.toList d.toList) :
    IsClosest name (c :: candidates) c := by
  obtain ⟨before, after, rfl, hbefore, hafter⟩ := h
  refine ⟨[], before ++ d :: after, rfl, by simp, ?_⟩
  intro a ha
  rcases List.mem_append.1 ha with ha | ha
  · exact hle.trans (hbefore a ha).le
  · rcases List.mem_cons.1 ha with rfl | ha
    · exact hle
    · exact hle.trans (hafter a ha)

/-- One that is further away does not. -/
theorem IsClosest.cons_lt (h : IsClosest name candidates d)
    (hlt : editDistance name.toList d.toList < editDistance name.toList c.toList) :
    IsClosest name (c :: candidates) d := by
  obtain ⟨before, after, rfl, hbefore, hafter⟩ := h
  exact ⟨c :: before, after, rfl, List.forall_mem_cons.2 ⟨hlt, hbefore⟩, hafter⟩

theorem exists_closest? (hne : candidates ≠ []) :
    ∃ c, closest? name candidates = some c ∧ IsClosest name candidates c := by
  induction candidates with
  | nil => exact absurd rfl hne
  | cons c candidates ih =>
    rw [closest?]
    by_cases hlast : candidates = []
    · rw [hlast]
      exact ⟨c, rfl, isClosest_singleton⟩
    · obtain ⟨d, hd, hclosest⟩ := ih hlast
      rw [hd]
      by_cases hle : editDistance name.toList c.toList ≤ editDistance name.toList d.toList
      · exact ⟨c, if_pos hle, hclosest.cons_le hle⟩
      · exact ⟨d, if_neg hle, hclosest.cons_lt (Nat.lt_of_not_le hle)⟩

end Text

namespace ConfigError

open Text

theorem message_unknownPolicy {name closest : String} {valid : List String}
    (h : suggestion name valid = s!"Did you mean '{closest}'?") :
    (unknownPolicy name valid).message =
      s!"Unknown context policy '{name}'. Did you mean '{closest}'?" := by
  have hmessage : (unknownPolicy name valid).message =
      s!"Unknown context policy '{name}'. {suggestion name valid}" := rfl
  have hjoined : "'. " ++ "Did you mean '" = "'. Did you mean '" := by decide +kernel
  rw [hmessage, h, ← hjoined]
  simp only [toString, String.append_assoc]

/-- The edit distance is the least number of insertions, deletions and substitutions of one character that
make one text of another, and the machine with two rows finds it. So it is zero for equal texts only, the same
in both directions, and no longer than a detour. An unknown name is reported together with the first of the
valid names whose distance to it is minimal. -/
theorem suggestion_closest (s t u : String) :
    (∀ scratch, scratch.size = t.toList.length + 1 →
      distanceInRows s.toList t.toList scratch = .ok (editDistance s.toList t.toList)) ∧
    IsLeast {n | Edits n s.toList t.toList} (editDistance s.toList t.toList) ∧
    (editDistance s.toList t.toList = 0 ↔ s = t) ∧
    editDistance s.toList t.toList = editDistance t.toList s.toList ∧
    editDistance s.toList u.toList ≤ editDistance s.toList t.toList + editDistance t.toList u.toList ∧
    ∀ name valid, valid ≠ [] → ∃ closest, IsClosest name valid closest ∧
      suggestion name valid = s!"Did you mean '{closest}'?" ∧
      (unknownPolicy name valid).message =
        s!"Unknown context policy '{name}'. Did you mean '{closest}'?" := by
  refine ⟨fun _ => distanceInRows_eq s.toList t.toList, isLeast_editDistance s.toList t.toList, ?_,
    editDistance_comm s.toList t.toList, editDistance_triangle s.toList t.toList u.toList, ?_⟩
  · rw [editDistance_eq_zero_iff, String.toList_inj]
  · intro name valid hne
    obtain ⟨closest, hfound, hclosest⟩ := @exists_closest? name valid hne
    have hsuggestion : suggestion name valid = s!"Did you mean '{closest}'?" := by rw [suggestion, hfound]
    exact ⟨closest, hclosest, hsuggestion, message_unknownPolicy hsuggestion⟩

/-- Three edits make one word of another, whatever the second row holds at first. For a name that is one edit
away from the third of four valid names, and further from the others, this one is suggested. -/
theorem suggestion_closest_object :
    (#[7, 7, 7, 7, 7, 7, 7, 7] : Array Nat).size = "sitting".toList.length + 1 ∧
    distanceInRows "kitten".toList "sitting".toList #[7, 7, 7, 7, 7, 7, 7, 7] = .ok 3 ∧
    Edits 3 "kitten".toList "sitting".toList ∧ ¬ Edits 2 "kitten".toList "sitting".toList ∧
    ["insensitive", "call-site", "object", "type"] ≠ [] ∧
    suggestion "objct" ["insensitive", "call-site", "object", "type"] = "Did you mean 'object'?" ∧
    ∃ closest, IsClosest "objct" ["insensitive", "call-site", "object", "type"] closest ∧
      suggestion "objct" ["insensitive", "call-site", "object", "type"] = s!"Did you mean '{closest}'?" := by
  obtain ⟨hrows, ⟨hedits, hleast⟩, -, -, -, hclosest⟩ := suggestion_closest "kitten" "sitting" ""
  have hsize : (#[7, 7, 7, 7, 7, 7, 7, 7] : Array Nat).size = "sitting".toList.length + 1 := by decide
  have hthree : editDistance "kitten".toList "sitting".toList = 3 := by decide
  have hne : ["insensitive", "call-site", "object", "type"] ≠ [] := by decide
  have hrow := hrows _ hsize
  rw [hthree] at hrow hedits hleast
  obtain ⟨closest, hfirst, hsuggestion, -⟩ := hclosest "objct" _ hne
  refine ⟨hsize, hrow, hedits, fun htwo => ?_, hne, by decide +kernel, closest, hfirst, hsuggestion⟩
  exact absurd (hleast htwo) (by decide)

end ConfigError

end PointsTo
