import Mathlib.Data.List.Dedup
import Mathlib.Data.List.Induction
import PointsTo.Collection.NameMap

/-!
# What a table built from a list holds

A table keeps one entry for each key. So a table built from a list has as many entries as the list
exactly if no key occurs twice (`size_ofList_iff`), and then it holds the whole list
(`get?_ofList_iff`). The order of the list does not matter, since look-ups determine a table
(`ext_get?`).
-/

namespace PointsTo.NameMap

variable {α : Type} {t u : NameMap α} {es : List (String × α)} {k : String} {v : α}

theorem pairwise_keys (t : NameMap α) : (t.entries.map (·.1)).Pairwise (· < ·) :=
  List.pairwise_map.2 t.sorted

theorem nodup_keys (t : NameMap α) : (t.entries.map (·.1)).Nodup := by
  refine t.pairwise_keys.imp ?_
  intro a b hlt hab
  exact String.lt_irrefl a (hab ▸ hlt)

/-- Look-ups determine a table. -/
theorem ext_get? (h : ∀ k, t.get? k = u.get? k) : t = u := by
  have hperm : t.entries.Perm u.entries := by
    refine (List.perm_ext_iff_of_nodup t.nodup_keys.of_map u.nodup_keys.of_map).2 ?_
    rintro ⟨k, v⟩
    rw [← get?_eq_some_iff, ← get?_eq_some_iff, h]
  have hentries : t.entries = u.entries := by
    refine hperm.eq_of_pairwise ?_ t.sorted u.sorted
    intro a b _ _ hab hba
    exact absurd hba (String.lt_asymm hab)
  cases t
  cases u
  cases hentries
  rfl

/-! ## Tables built from lists -/

@[simp] theorem ofList_nil : (ofList [] : NameMap α) = ∅ := rfl

theorem ofList_concat (es : List (String × α)) (e : String × α) :
    ofList (es ++ [e]) = (ofList es).insert e.1 e.2 := by
  simp [ofList, List.foldl_append]

/-- A table invents no entries. -/
theorem mem_of_get?_ofList (h : (ofList es).get? k = some v) : (k, v) ∈ es := by
  induction es using List.reverseRecOn with
  | nil => cases h
  | append_singleton es e ih =>
    rw [ofList_concat, get?_insert] at h
    by_cases hk : k = e.1
    · rw [if_pos hk] at h
      obtain rfl : e.2 = v := Option.some.inj h
      rw [hk]
      simp
    · rw [if_neg hk] at h
      exact List.mem_append_left _ (ih h)

/-- A table loses no key. -/
theorem exists_get?_ofList (h : (k, v) ∈ es) : ∃ w, (ofList es).get? k = some w := by
  induction es using List.reverseRecOn with
  | nil => cases h
  | append_singleton es e ih =>
    rw [ofList_concat, get?_insert]
    by_cases hk : k = e.1
    · exact ⟨e.2, by rw [if_pos hk]⟩
    · rw [if_neg hk]
      refine ih ((List.mem_append.1 h).resolve_right ?_)
      rintro hmem
      rw [List.mem_singleton] at hmem
      exact hk (by rw [← hmem])

/-- Without a key that occurs twice, a table holds exactly the entries of the list. -/
theorem get?_ofList_iff (h : (es.map (·.1)).Nodup) :
    (ofList es).get? k = some v ↔ (k, v) ∈ es := by
  constructor
  · exact mem_of_get?_ofList
  · intro hmem
    obtain ⟨w, hw⟩ := exists_get?_ofList hmem
    have heq : (k, w) = (k, v) := List.inj_on_of_nodup_map h (mem_of_get?_ofList hw) hmem rfl
    cases heq
    exact hw

/-- A table has an entry for each key of the list. -/
theorem keys_ofList_perm (es : List (String × α)) :
    ((ofList es).entries.map (·.1)).Perm (es.map (·.1)).dedup := by
  refine (List.perm_ext_iff_of_nodup (nodup_keys _) (List.nodup_dedup _)).2 fun k => ?_
  simp only [List.mem_dedup, List.mem_map, Prod.exists, exists_and_right, exists_eq_right]
  constructor
  · rintro ⟨v, hv⟩
    exact ⟨v, mem_of_get?_ofList (get?_eq_some_iff.2 hv)⟩
  · rintro ⟨v, hv⟩
    obtain ⟨w, hw⟩ := exists_get?_ofList hv
    exact ⟨w, get?_eq_some_iff.1 hw⟩

/-- A table is as large as the list exactly if no key occurs twice. -/
theorem size_ofList_iff : (ofList es).size = es.length ↔ (es.map (·.1)).Nodup := by
  have hsize : (ofList es).size = (es.map (·.1)).dedup.length := by
    rw [← (keys_ofList_perm es).length_eq, List.length_map]
    rfl
  rw [hsize]
  constructor
  · intro hlen
    have hdedup : (es.map (·.1)).dedup = es.map (·.1) :=
      (List.dedup_sublist _).eq_of_length (by rw [hlen, List.length_map])
    exact List.dedup_eq_self.1 hdedup
  · intro hnodup
    rw [List.dedup_eq_self.2 hnodup, List.length_map]

end PointsTo.NameMap
