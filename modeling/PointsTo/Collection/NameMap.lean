/-!
# Tables keyed by text

A `NameMap α` lists its entries with strictly increasing keys. Keys compare by code point, which is
also the order of their UTF-8 bytes. As the order belongs to the type, a key has at most one entry,
and writing a table out always gives the same text. `get?_insert` and `get?_erase` say what each
change does to the look-ups.
-/

namespace PointsTo

/-- A finite table from text to `α`, listed by increasing key. -/
structure NameMap (α : Type) where
  /-- The entries, smallest key first. -/
  entries : List (String × α)
  /-- No key is listed twice or out of order. -/
  sorted : entries.Pairwise (fun a b => a.1 < b.1)
deriving DecidableEq

namespace NameMap

variable {α β : Type}

/-! ## Walks over the entries -/

/-- The entry `(k, v)` put in its place in a list of increasing keys, over an old entry of `k`. -/
def putEntry (k : String) (v : α) : List (String × α) → List (String × α)
  | [] => [(k, v)]
  | e :: es =>
    if k < e.1 then (k, v) :: e :: es
    else if e.1 < k then e :: putEntry k v es
    else (k, v) :: es

theorem eq_of_not_lt {a b : String} (h₁ : ¬a < b) (h₂ : ¬b < a) : a = b :=
  String.le_antisymm (String.not_lt.1 h₂) (String.not_lt.1 h₁)

theorem mem_putEntry {k : String} {v : α} {e : String × α} {es : List (String × α)}
    (h : es.Pairwise (fun a b => a.1 < b.1)) :
    e ∈ putEntry k v es ↔ e = (k, v) ∨ e ∈ es ∧ e.1 ≠ k := by
  induction es with
  | nil => simp [putEntry]
  | cons d ds ih =>
    have h' := List.pairwise_cons.1 h
    unfold putEntry
    split
    · rename_i hk
      have hne : ∀ x ∈ d :: ds, x.1 ≠ k := by
        intro x hx
        rcases List.mem_cons.1 hx with rfl | hx
        · exact fun he => String.lt_irrefl k (he ▸ hk)
        · intro he
          have hlt := String.lt_trans hk (h'.1 x hx)
          rw [he] at hlt
          exact String.lt_irrefl k hlt
      constructor
      · intro he
        rcases List.mem_cons.1 he with rfl | he
        · exact Or.inl rfl
        · exact Or.inr ⟨he, hne e he⟩
      · rintro (rfl | ⟨he, -⟩)
        · exact List.mem_cons_self
        · exact List.mem_cons_of_mem _ he
    · split
      · rename_i hd
        rw [List.mem_cons, ih h'.2, List.mem_cons]
        constructor
        · rintro (rfl | rfl | ⟨he, hne⟩)
          · exact Or.inr ⟨Or.inl rfl, fun he => String.lt_irrefl k (he ▸ hd)⟩
          · exact Or.inl rfl
          · exact Or.inr ⟨Or.inr he, hne⟩
        · rintro (rfl | ⟨rfl | he, hne⟩)
          · exact Or.inr (Or.inl rfl)
          · exact Or.inl rfl
          · exact Or.inr (Or.inr ⟨he, hne⟩)
      · rename_i hk hd
        have hkd : k = d.1 := eq_of_not_lt hk hd
        rw [List.mem_cons, List.mem_cons]
        constructor
        · rintro (rfl | he)
          · exact Or.inl rfl
          · exact Or.inr ⟨Or.inr he, fun hek => String.lt_irrefl k (by
              have := h'.1 e he; rw [hek, ← hkd] at this; exact this)⟩
        · rintro (rfl | ⟨rfl | he, hne⟩)
          · exact Or.inl rfl
          · exact absurd hkd.symm hne
          · exact Or.inr he

theorem sorted_putEntry {k : String} {v : α} {es : List (String × α)}
    (h : es.Pairwise (fun a b => a.1 < b.1)) :
    (putEntry k v es).Pairwise (fun a b => a.1 < b.1) := by
  induction es with
  | nil => simp [putEntry]
  | cons d ds ih =>
    have h' := List.pairwise_cons.1 h
    unfold putEntry
    split
    · rename_i hk
      refine List.pairwise_cons.2 ⟨fun x hx => ?_, h⟩
      rcases List.mem_cons.1 hx with rfl | hx
      · exact hk
      · exact String.lt_trans hk (h'.1 x hx)
    · split
      · rename_i hd
        refine List.pairwise_cons.2 ⟨fun x hx => ?_, ih h'.2⟩
        rcases (mem_putEntry h'.2).1 hx with rfl | ⟨hx, -⟩
        · exact hd
        · exact h'.1 x hx
      · rename_i hk hd
        have hkd : k = d.1 := eq_of_not_lt hk hd
        exact List.pairwise_cons.2 ⟨fun x hx => hkd ▸ h'.1 x hx, h'.2⟩

/-! ## The tables -/

/-- The table without entries. -/
def empty : NameMap α := ⟨[], .nil⟩

instance : EmptyCollection (NameMap α) := ⟨empty⟩

instance : Inhabited (NameMap α) := ⟨empty⟩

/-- The table with `v` under `k`, whatever was under `k` before. -/
def insert (t : NameMap α) (k : String) (v : α) : NameMap α :=
  ⟨putEntry k v t.entries, sorted_putEntry t.sorted⟩

/-- The table without an entry of `k`. -/
def erase (t : NameMap α) (k : String) : NameMap α :=
  ⟨t.entries.filter (·.1 ≠ k), t.sorted.sublist List.filter_sublist⟩

/-- The table of a list of entries; of two entries of one key the later one counts. -/
def ofList (es : List (String × α)) : NameMap α := es.foldl (fun t e => t.insert e.1 e.2) empty

/-- What stands under `k`. -/
def get? (t : NameMap α) (k : String) : Option α := t.entries.lookup k

/-- How many entries the table has. -/
def size (t : NameMap α) : Nat := t.entries.length

/-! ## What the operations hold -/

/-- An entry is listed exactly if it is what a look-up of its key finds. -/
theorem get?_eq_some_iff {t : NameMap α} {k : String} {v : α} :
    t.get? k = some v ↔ (k, v) ∈ t.entries := by
  obtain ⟨es, h⟩ := t
  show es.lookup k = some v ↔ (k, v) ∈ es
  induction es with
  | nil => simp
  | cons d ds ih =>
    have h' := List.pairwise_cons.1 h
    obtain ⟨a, b⟩ := d
    rw [List.lookup_cons, List.mem_cons]
    by_cases hk : k = a
    · subst hk
      simp only [beq_self_eq_true, Option.some.injEq, Prod.mk.injEq, true_and]
      constructor
      · exact fun he => Or.inl he.symm
      · rintro (he | he)
        · exact he.symm
        · exact absurd (h'.1 _ he) (String.lt_irrefl _)
    · have hb : (k == a) = false := by simpa using hk
      simp only [hb, Prod.mk.injEq, hk, false_and, false_or]
      exact ih h'.2

@[simp] theorem get?_empty {k : String} : (∅ : NameMap α).get? k = none := rfl

theorem get?_insert {t : NameMap α} {k j : String} {v : α} :
    (t.insert k v).get? j = if j = k then some v else t.get? j := by
  apply Option.ext
  intro w
  rw [get?_eq_some_iff]
  refine (mem_putEntry t.sorted).trans ?_
  by_cases hj : j = k
  · subst hj
    simp [eq_comm]
  · simp [hj, get?_eq_some_iff]

theorem get?_erase {t : NameMap α} {k j : String} :
    (t.erase k).get? j = if j = k then none else t.get? j := by
  apply Option.ext
  intro w
  rw [get?_eq_some_iff]
  by_cases hj : j = k
  · simp [hj, erase]
  · simp [hj, erase, get?_eq_some_iff]

end NameMap

end PointsTo
