import PointsTo.Proofs.Facts

/-!
# What the ids of an arena stand for

`Arena.object?`, `Arena.method?`, `Arena.site?` and `Arena.location?` read an id as the value it stands
for. In a well-formed arena every id that was handed out stands for something, two ids never stand for
the same (`eq_of_object?` and its like), and interning changes nothing about the ids handed out before:
`Arena.Grows`.

`Arena.Interns a b f` says all there is to say about one request: `b` is `a` with the thing named by
the fact `f` interned.
-/

namespace PointsTo

namespace Interner

variable {α : Type} {t : Interner α}

theorem lt_size_iff {i : Nat} : i < t.size ↔ ∃ a, t.get? i = some a := by
  constructor
  · intro h
    exact ⟨t.items[i], Array.getElem?_eq_getElem h⟩
  · rintro ⟨a, h⟩
    exact (Array.getElem?_eq_some_iff.1 h).1

theorem lt_size_of_get? {i : Nat} {a : α} (h : t.get? i = some a) : i < t.size :=
  lt_size_iff.2 ⟨a, h⟩

/-- Two ids never stand for the same value. -/
theorem eq_of_get? [DecidableEq α] {i j : Nat} {a : α} (hi : t.get? i = some a)
    (hj : t.get? j = some a) : i = j := by
  have h := (find?_eq_some_iff.2 hi).symm.trans (find?_eq_some_iff.2 hj)
  exact Option.some.inj h

/-- Interning hands out no id but that of the value asked for. -/
theorem get?_of_intern [DecidableEq α] {a b : α} {i : Nat} (h : (t.intern a).2.get? i = some b) :
    t.get? i = some b ∨ i = (t.intern a).1 ∧ b = a := by
  cases hf : t.find? a with
  | some j =>
    rw [intern_of_find? hf] at h
    exact Or.inl h
  | none =>
    obtain ⟨hid, hitems⟩ := items_intern_of_find?_eq_none hf
    rw [get?, hitems, Array.getElem?_push] at h
    split at h
    · rename_i hi
      exact Or.inr ⟨hi.trans hid.symm, (Option.some.inj h).symm⟩
    · exact Or.inl h

theorem lt_size_of_intern [DecidableEq α] {a : α} {i : Nat} (h : i < (t.intern a).2.size) :
    i < t.size ∨ i = (t.intern a).1 := by
  obtain ⟨b, hb⟩ := lt_size_iff.1 h
  rcases get?_of_intern hb with hb | ⟨hi, -⟩
  · exact Or.inl (lt_size_of_get? hb)
  · exact Or.inr hi

end Interner

namespace Arena

/-! ## Values of ids -/

def object? (a : Arena) (i : CSObjId) : Option HeapObject :=
  (a.objects.get? i).bind fun o => (a.contexts.get? o.heapContext).map (⟨·, o.object⟩)

def method? (a : Arena) (i : CSMethodId) : Option MethodInstance :=
  (a.methods.get? i).bind fun m => (a.contexts.get? m.context).map (⟨·, m.method⟩)

def site? (a : Arena) (i : CSSiteId) : Option SiteInstance :=
  (a.sites.get? i).bind fun x => (a.contexts.get? x.context).map (⟨·, x.site⟩)

/-- The location that a pointer stands for. -/
def locate? (a : Arena) : Pointer → Option Location
  | .var c v => (a.contexts.get? c).map (.var · v)
  | .instanceField base f => (a.object? base).map (.instanceField · f)
  | .staticField f => some (.staticField f)
  | .arraySlots array => (a.object? array).map .arraySlots

def location? (a : Arena) (i : PointerId) : Option Location := (a.pointers.get? i).bind a.locate?

section

variable {a b : Arena} {i j : Nat}

theorem object?_eq_some_iff {o : HeapObject} :
    a.object? i = some o ↔
      ∃ h, a.objects.get? i = some ⟨h, o.object⟩ ∧ a.contexts.get? h = some o.heapContext := by
  simp only [object?, Option.bind_eq_some_iff, Option.map_eq_some_iff]
  constructor
  · rintro ⟨r, hr, c, hc, rfl⟩
    exact ⟨r.heapContext, hr, hc⟩
  · rintro ⟨h, hr, hc⟩
    exact ⟨_, hr, _, hc, rfl⟩

theorem method?_eq_some_iff {m : MethodInstance} :
    a.method? i = some m ↔
      ∃ c, a.methods.get? i = some ⟨c, m.method⟩ ∧ a.contexts.get? c = some m.context := by
  simp only [method?, Option.bind_eq_some_iff, Option.map_eq_some_iff]
  constructor
  · rintro ⟨r, hr, c, hc, rfl⟩
    exact ⟨r.context, hr, hc⟩
  · rintro ⟨h, hr, hc⟩
    exact ⟨_, hr, _, hc, rfl⟩

theorem site?_eq_some_iff {x : SiteInstance} :
    a.site? i = some x ↔
      ∃ c, a.sites.get? i = some ⟨c, x.site⟩ ∧ a.contexts.get? c = some x.context := by
  simp only [site?, Option.bind_eq_some_iff, Option.map_eq_some_iff]
  constructor
  · rintro ⟨r, hr, c, hc, rfl⟩
    exact ⟨r.context, hr, hc⟩
  · rintro ⟨h, hr, hc⟩
    exact ⟨_, hr, _, hc, rfl⟩

theorem location?_eq_some_iff {l : Location} :
    a.location? i = some l ↔ ∃ p, a.pointers.get? i = some p ∧ a.locate? p = some l := by
  simp only [location?, Option.bind_eq_some_iff]

/-- Only a variable stands for a variable. -/
theorem locate?_eq_var_iff {p : Pointer} {c : Context} {v : VarId} :
    a.locate? p = some (.var c v) ↔ ∃ k, p = .var k v ∧ a.contexts.get? k = some c := by
  cases p with
  | var k w =>
    simp only [locate?, Option.map_eq_some_iff, Location.var.injEq, Pointer.var.injEq]
    constructor
    · rintro ⟨d, hd, rfl, rfl⟩
      exact ⟨k, ⟨rfl, rfl⟩, hd⟩
    · rintro ⟨_, ⟨rfl, rfl⟩, hd⟩
      exact ⟨c, hd, rfl, rfl⟩
  | _ => simp [locate?]

/-- Only a field stands for a field. -/
theorem locate?_eq_instanceField_iff {p : Pointer} {o : HeapObject} {f : FieldId} :
    a.locate? p = some (.instanceField o f) ↔ ∃ k, p = .instanceField k f ∧ a.object? k = some o := by
  cases p with
  | instanceField k g =>
    simp only [locate?, Option.map_eq_some_iff, Location.instanceField.injEq,
      Pointer.instanceField.injEq]
    constructor
    · rintro ⟨d, hd, rfl, rfl⟩
      exact ⟨k, ⟨rfl, rfl⟩, hd⟩
    · rintro ⟨_, ⟨rfl, rfl⟩, hd⟩
      exact ⟨o, hd, rfl, rfl⟩
  | _ => simp [locate?]

/-- Only a static field stands for a static field. -/
theorem locate?_eq_staticField_iff {p : Pointer} {f : FieldId} :
    a.locate? p = some (.staticField f) ↔ p = .staticField f := by
  cases p <;> simp [locate?]

/-- Only array slots stand for array slots. -/
theorem locate?_eq_arraySlots_iff {p : Pointer} {o : HeapObject} :
    a.locate? p = some (.arraySlots o) ↔ ∃ k, p = .arraySlots k ∧ a.object? k = some o := by
  cases p with
  | arraySlots k =>
    simp only [locate?, Option.map_eq_some_iff, Location.arraySlots.injEq, Pointer.arraySlots.injEq]
    constructor
    · rintro ⟨d, hd, rfl⟩
      exact ⟨k, rfl, hd⟩
    · rintro ⟨_, rfl, hd⟩
      exact ⟨o, hd, rfl⟩
  | _ => simp [locate?]

/-! ## Two ids never stand for the same -/

theorem eq_of_object? {o : HeapObject} (hi : a.object? i = some o) (hj : a.object? j = some o) :
    i = j := by
  obtain ⟨h, hr, hc⟩ := object?_eq_some_iff.1 hi
  obtain ⟨h', hr', hc'⟩ := object?_eq_some_iff.1 hj
  obtain rfl := Interner.eq_of_get? hc hc'
  exact Interner.eq_of_get? hr hr'

theorem eq_of_method? {m : MethodInstance} (hi : a.method? i = some m) (hj : a.method? j = some m) :
    i = j := by
  obtain ⟨c, hr, hc⟩ := method?_eq_some_iff.1 hi
  obtain ⟨c', hr', hc'⟩ := method?_eq_some_iff.1 hj
  obtain rfl := Interner.eq_of_get? hc hc'
  exact Interner.eq_of_get? hr hr'

theorem eq_of_site? {x : SiteInstance} (hi : a.site? i = some x) (hj : a.site? j = some x) :
    i = j := by
  obtain ⟨c, hr, hc⟩ := site?_eq_some_iff.1 hi
  obtain ⟨c', hr', hc'⟩ := site?_eq_some_iff.1 hj
  obtain rfl := Interner.eq_of_get? hc hc'
  exact Interner.eq_of_get? hr hr'

theorem eq_of_locate? {p q : Pointer} {l : Location} (hp : a.locate? p = some l)
    (hq : a.locate? q = some l) : p = q := by
  cases l with
  | var c v =>
    obtain ⟨k, rfl, hk⟩ := locate?_eq_var_iff.1 hp
    obtain ⟨k', rfl, hk'⟩ := locate?_eq_var_iff.1 hq
    rw [Interner.eq_of_get? hk hk']
  | instanceField o f =>
    obtain ⟨k, rfl, hk⟩ := locate?_eq_instanceField_iff.1 hp
    obtain ⟨k', rfl, hk'⟩ := locate?_eq_instanceField_iff.1 hq
    rw [eq_of_object? hk hk']
  | staticField f => rw [locate?_eq_staticField_iff.1 hp, locate?_eq_staticField_iff.1 hq]
  | arraySlots o =>
    obtain ⟨k, rfl, hk⟩ := locate?_eq_arraySlots_iff.1 hp
    obtain ⟨k', rfl, hk'⟩ := locate?_eq_arraySlots_iff.1 hq
    rw [eq_of_object? hk hk']

theorem eq_of_location? {l : Location} (hi : a.location? i = some l) (hj : a.location? j = some l) :
    i = j := by
  obtain ⟨p, hp, hl⟩ := location?_eq_some_iff.1 hi
  obtain ⟨q, hq, hl'⟩ := location?_eq_some_iff.1 hj
  obtain rfl := eq_of_locate? hl hl'
  exact Interner.eq_of_get? hp hq

/-! ## Well-formed arenas -/

/-- Every id that was handed out stands for something. -/
structure WellFormed (a : Arena) : Prop where
  object : ∀ i, i < a.objects.size → ∃ o, a.object? i = some o
  method : ∀ i, i < a.methods.size → ∃ m, a.method? i = some m
  site : ∀ i, i < a.sites.size → ∃ x, a.site? i = some x
  location : ∀ i, i < a.pointers.size → ∃ l, a.location? i = some l

theorem lt_of_object? {o : HeapObject} (h : a.object? i = some o) : i < a.objects.size := by
  obtain ⟨_, hr, _⟩ := object?_eq_some_iff.1 h
  exact Interner.lt_size_of_get? hr

theorem lt_of_method? {m : MethodInstance} (h : a.method? i = some m) : i < a.methods.size := by
  obtain ⟨_, hr, _⟩ := method?_eq_some_iff.1 h
  exact Interner.lt_size_of_get? hr

theorem lt_of_site? {x : SiteInstance} (h : a.site? i = some x) : i < a.sites.size := by
  obtain ⟨_, hr, _⟩ := site?_eq_some_iff.1 h
  exact Interner.lt_size_of_get? hr

theorem lt_of_location? {l : Location} (h : a.location? i = some l) : i < a.pointers.size := by
  obtain ⟨_, hr, _⟩ := location?_eq_some_iff.1 h
  exact Interner.lt_size_of_get? hr

theorem wellFormed_initial : Arena.initial.WellFormed where
  object i h := absurd h (Nat.not_lt_zero i)
  method i h := absurd h (Nat.not_lt_zero i)
  site i h := absurd h (Nat.not_lt_zero i)
  location i h := absurd h (Nat.not_lt_zero i)

/-- An id that was never handed out points to nothing. -/
theorem lt_of_mem_pointsTo {o : CSObjId} (h : o ∈ a.pointsTo i) : i < a.pointers.size := by
  rcases Nat.lt_or_ge i a.pointers.size with hi | hi
  · exact hi
  · rw [pointsTo, Array.getElem?_eq_none (by rw [a.size_pointsToSets]; exact hi)] at h
    exact absurd h IdSet.not_mem_empty

theorem mem_pointsToOf {p : Pointer} {o : CSObjId} :
    o ∈ a.pointsToOf p ↔ ∃ i, a.pointers.get? i = some p ∧ o ∈ a.pointsTo i := by
  simp only [← Interner.find?_eq_some_iff, pointsToOf]
  cases a.pointers.find? p with
  | none => simp
  | some i => simp

/-- Giving a pointer the set that it has changes nothing. -/
theorem setPointsTo_pointsTo (a : Arena) (i : PointerId) : a.setPointsTo i (a.pointsTo i) = a := by
  have hsets : a.pointsToSets.setIfInBounds i (a.pointsTo i) = a.pointsToSets := by
    refine Array.ext (Array.size_setIfInBounds ..) ?_
    intro k hk hk'
    rw [Array.getElem_setIfInBounds hk']
    split
    · rename_i h
      subst h
      rw [pointsTo, Array.getElem?_eq_getElem hk', Option.getD_some]
    · rfl
  obtain ⟨contexts, objects, methods, sites, pointers, sets, hsize⟩ := a
  unfold setPointsTo
  congr

/-! ## Growth -/

/-- Every id of `a` stands in `b` for what it stands for in `a`, and no points-to set has lost a
member. -/
structure Grows (a b : Arena) : Prop where
  contexts : ∀ i c, a.contexts.get? i = some c → b.contexts.get? i = some c
  objects : ∀ i o, a.objects.get? i = some o → b.objects.get? i = some o
  methods : ∀ i m, a.methods.get? i = some m → b.methods.get? i = some m
  sites : ∀ i x, a.sites.get? i = some x → b.sites.get? i = some x
  pointers : ∀ i p, a.pointers.get? i = some p → b.pointers.get? i = some p
  pointsTo : ∀ i o, o ∈ a.pointsTo i → o ∈ b.pointsTo i

theorem Grows.refl (a : Arena) : a.Grows a :=
  ⟨fun _ _ h => h, fun _ _ h => h, fun _ _ h => h, fun _ _ h => h, fun _ _ h => h, fun _ _ h => h⟩

theorem Grows.trans {c : Arena} (h : a.Grows b) (h' : b.Grows c) : a.Grows c where
  contexts i x hx := h'.contexts i x (h.contexts i x hx)
  objects i x hx := h'.objects i x (h.objects i x hx)
  methods i x hx := h'.methods i x (h.methods i x hx)
  sites i x hx := h'.sites i x (h.sites i x hx)
  pointers i x hx := h'.pointers i x (h.pointers i x hx)
  pointsTo i x hx := h'.pointsTo i x (h.pointsTo i x hx)

theorem Grows.object_lt (h : a.Grows b) (hi : i < a.objects.size) : i < b.objects.size :=
  Interner.lt_size_iff.2 ((Interner.lt_size_iff.1 hi).imp fun o ho => h.objects i o ho)

theorem Grows.method_lt (h : a.Grows b) (hi : i < a.methods.size) : i < b.methods.size :=
  Interner.lt_size_iff.2 ((Interner.lt_size_iff.1 hi).imp fun m hm => h.methods i m hm)

theorem Grows.site_lt (h : a.Grows b) (hi : i < a.sites.size) : i < b.sites.size :=
  Interner.lt_size_iff.2 ((Interner.lt_size_iff.1 hi).imp fun x hx => h.sites i x hx)

theorem Grows.pointer_lt (h : a.Grows b) (hi : i < a.pointers.size) : i < b.pointers.size :=
  Interner.lt_size_iff.2 ((Interner.lt_size_iff.1 hi).imp fun p hp => h.pointers i p hp)

theorem Grows.object? (h : a.Grows b) {o : HeapObject} (ho : a.object? i = some o) :
    b.object? i = some o := by
  obtain ⟨k, hr, hc⟩ := object?_eq_some_iff.1 ho
  exact object?_eq_some_iff.2 ⟨k, h.objects _ _ hr, h.contexts _ _ hc⟩

theorem Grows.method? (h : a.Grows b) {m : MethodInstance} (hm : a.method? i = some m) :
    b.method? i = some m := by
  obtain ⟨k, hr, hc⟩ := method?_eq_some_iff.1 hm
  exact method?_eq_some_iff.2 ⟨k, h.methods _ _ hr, h.contexts _ _ hc⟩

theorem Grows.site? (h : a.Grows b) {x : SiteInstance} (hx : a.site? i = some x) :
    b.site? i = some x := by
  obtain ⟨k, hr, hc⟩ := site?_eq_some_iff.1 hx
  exact site?_eq_some_iff.2 ⟨k, h.sites _ _ hr, h.contexts _ _ hc⟩

theorem Grows.locate? (h : a.Grows b) {p : Pointer} {l : Location} (hl : a.locate? p = some l) :
    b.locate? p = some l := by
  cases l with
  | var c v =>
    obtain ⟨k, rfl, hk⟩ := locate?_eq_var_iff.1 hl
    exact locate?_eq_var_iff.2 ⟨k, rfl, h.contexts _ _ hk⟩
  | instanceField o f =>
    obtain ⟨k, rfl, hk⟩ := locate?_eq_instanceField_iff.1 hl
    exact locate?_eq_instanceField_iff.2 ⟨k, rfl, h.object? hk⟩
  | staticField f => exact locate?_eq_staticField_iff.2 (locate?_eq_staticField_iff.1 hl)
  | arraySlots o =>
    obtain ⟨k, rfl, hk⟩ := locate?_eq_arraySlots_iff.1 hl
    exact locate?_eq_arraySlots_iff.2 ⟨k, rfl, h.object? hk⟩

theorem Grows.location? (h : a.Grows b) {l : Location} (hl : a.location? i = some l) :
    b.location? i = some l := by
  obtain ⟨p, hp, hl⟩ := location?_eq_some_iff.1 hl
  exact location?_eq_some_iff.2 ⟨p, h.pointers _ _ hp, h.locate? hl⟩

/-! ## Interning -/

/-- What an arena knows to occur. -/
def Holds (a : Arena) : Fact → Prop
  | .context c => ∃ i, a.contexts.get? i = some c
  | .object o => ∃ i, a.object? i = some o
  | .method m => ∃ i, a.method? i = some m
  | .site x => ∃ i, a.site? i = some x
  | .location l => ∃ i, a.location? i = some l
  | _ => False

/-- `b` is the arena `a` with the thing interned whose occurrence `f` is: every other id of `b` is one
of `a`. -/
structure Interns (a b : Arena) (f : Fact) : Prop where
  grows : a.Grows b
  pointsTo : ∀ i, b.pointsTo i = a.pointsTo i
  contexts : ∀ i c, b.contexts.get? i = some c → a.contexts.get? i = some c ∨ .context c = f
  objects : ∀ i, i < b.objects.size →
    i < a.objects.size ∨ ∃ o, b.object? i = some o ∧ .object o = f
  methods : ∀ i, i < b.methods.size →
    i < a.methods.size ∨ ∃ m, b.method? i = some m ∧ .method m = f
  sites : ∀ i, i < b.sites.size → i < a.sites.size ∨ ∃ x, b.site? i = some x ∧ .site x = f
  pointers : ∀ i, i < b.pointers.size →
    i < a.pointers.size ∨ ∃ l, b.location? i = some l ∧ .location l = f

theorem Interns.wellFormed {f : Fact} (h : a.Interns b f) (hw : a.WellFormed) : b.WellFormed where
  object i hi := by
    rcases h.objects i hi with hi | ⟨o, ho, -⟩
    · obtain ⟨o, ho⟩ := hw.object i hi
      exact ⟨o, h.grows.object? ho⟩
    · exact ⟨o, ho⟩
  method i hi := by
    rcases h.methods i hi with hi | ⟨m, hm, -⟩
    · obtain ⟨m, hm⟩ := hw.method i hi
      exact ⟨m, h.grows.method? hm⟩
    · exact ⟨m, hm⟩
  site i hi := by
    rcases h.sites i hi with hi | ⟨x, hx, -⟩
    · obtain ⟨x, hx⟩ := hw.site i hi
      exact ⟨x, h.grows.site? hx⟩
    · exact ⟨x, hx⟩
  location i hi := by
    rcases h.pointers i hi with hi | ⟨l, hl, -⟩
    · obtain ⟨l, hl⟩ := hw.location i hi
      exact ⟨l, h.grows.location? hl⟩
    · exact ⟨l, hl⟩

/-- Nothing new occurs but the thing interned. -/
theorem Interns.holds {f g : Fact} (h : a.Interns b f) (hw : a.WellFormed) (hg : b.Holds g) :
    a.Holds g ∨ g = f := by
  cases g with
  | context c =>
    obtain ⟨i, hi⟩ := hg
    rcases h.contexts i c hi with hi | hf
    · exact Or.inl ⟨i, hi⟩
    · exact Or.inr hf
  | object o =>
    obtain ⟨i, hi⟩ := hg
    rcases h.objects i (lt_of_object? hi) with hlt | ⟨o', ho', hf⟩
    · obtain ⟨o', ho'⟩ := hw.object i hlt
      exact Or.inl ⟨i, by rw [ho', ← h.grows.object? ho', hi]⟩
    · exact Or.inr (by rw [← hf, Option.some.inj (hi.symm.trans ho')])
  | method m =>
    obtain ⟨i, hi⟩ := hg
    rcases h.methods i (lt_of_method? hi) with hlt | ⟨m', hm', hf⟩
    · obtain ⟨m', hm'⟩ := hw.method i hlt
      exact Or.inl ⟨i, by rw [hm', ← h.grows.method? hm', hi]⟩
    · exact Or.inr (by rw [← hf, Option.some.inj (hi.symm.trans hm')])
  | site x =>
    obtain ⟨i, hi⟩ := hg
    rcases h.sites i (lt_of_site? hi) with hlt | ⟨x', hx', hf⟩
    · obtain ⟨x', hx'⟩ := hw.site i hlt
      exact Or.inl ⟨i, by rw [hx', ← h.grows.site? hx', hi]⟩
    · exact Or.inr (by rw [← hf, Option.some.inj (hi.symm.trans hx')])
  | location l =>
    obtain ⟨i, hi⟩ := hg
    rcases h.pointers i (lt_of_location? hi) with hlt | ⟨l', hl', hf⟩
    · obtain ⟨l', hl'⟩ := hw.location i hlt
      exact Or.inl ⟨i, by rw [hl', ← h.grows.location? hl', hi]⟩
    · exact Or.inr (by rw [← hf, Option.some.inj (hi.symm.trans hl')])
  | _ => exact hg.elim

theorem interns_internContext (a : Arena) (c : Context) :
    a.Interns (a.internContext c).2 (.context c) where
  grows := { Grows.refl a with contexts := fun _ _ h => Interner.get?_intern_of_some h }
  pointsTo _ := rfl
  contexts i d h := (Interner.get?_of_intern h).imp id fun h => by rw [h.2]
  objects _ h := Or.inl h
  methods _ h := Or.inl h
  sites _ h := Or.inl h
  pointers _ h := Or.inl h

theorem get?_internContext (a : Arena) (c : Context) :
    (a.internContext c).2.contexts.get? (a.internContext c).1 = some c :=
  Interner.get?_intern_self

theorem object?_internObject {o : CSObj} {c : Context} (hc : a.contexts.get? o.heapContext = some c) :
    (a.internObject o).2.object? (a.internObject o).1 = some ⟨c, o.object⟩ :=
  object?_eq_some_iff.2 ⟨o.heapContext, Interner.get?_intern_self, hc⟩

theorem interns_internObject {o : CSObj} {c : Context}
    (hc : a.contexts.get? o.heapContext = some c) :
    a.Interns (a.internObject o).2 (.object ⟨c, o.object⟩) where
  grows := { Grows.refl a with objects := fun _ _ h => Interner.get?_intern_of_some h }
  pointsTo _ := rfl
  contexts _ _ h := Or.inl h
  objects i h := (Interner.lt_size_of_intern h).imp id fun h =>
    ⟨_, by rw [h]; exact object?_internObject hc, rfl⟩
  methods _ h := Or.inl h
  sites _ h := Or.inl h
  pointers _ h := Or.inl h

theorem method?_internMethod {m : CSMethod} {c : Context} (hc : a.contexts.get? m.context = some c) :
    (a.internMethod m).2.method? (a.internMethod m).1 = some ⟨c, m.method⟩ :=
  method?_eq_some_iff.2 ⟨m.context, Interner.get?_intern_self, hc⟩

theorem interns_internMethod {m : CSMethod} {c : Context} (hc : a.contexts.get? m.context = some c) :
    a.Interns (a.internMethod m).2 (.method ⟨c, m.method⟩) where
  grows := { Grows.refl a with methods := fun _ _ h => Interner.get?_intern_of_some h }
  pointsTo _ := rfl
  contexts _ _ h := Or.inl h
  objects _ h := Or.inl h
  methods i h := (Interner.lt_size_of_intern h).imp id fun h =>
    ⟨_, by rw [h]; exact method?_internMethod hc, rfl⟩
  sites _ h := Or.inl h
  pointers _ h := Or.inl h

theorem site?_internSite {x : CSSite} {c : Context} (hc : a.contexts.get? x.context = some c) :
    (a.internSite x).2.site? (a.internSite x).1 = some ⟨c, x.site⟩ :=
  site?_eq_some_iff.2 ⟨x.context, Interner.get?_intern_self, hc⟩

theorem interns_internSite {x : CSSite} {c : Context} (hc : a.contexts.get? x.context = some c) :
    a.Interns (a.internSite x).2 (.site ⟨c, x.site⟩) where
  grows := { Grows.refl a with sites := fun _ _ h => Interner.get?_intern_of_some h }
  pointsTo _ := rfl
  contexts _ _ h := Or.inl h
  objects _ h := Or.inl h
  methods _ h := Or.inl h
  sites i h := (Interner.lt_size_of_intern h).imp id fun h =>
    ⟨_, by rw [h]; exact site?_internSite hc, rfl⟩
  pointers _ h := Or.inl h

/-- Interning a pointer hands out the id that its table hands out, and changes no other table. -/
theorem internPointer_eq (a : Arena) (p : Pointer) :
    (a.internPointer p).1 = (a.pointers.intern p).1 ∧
      (a.internPointer p).2.pointers = (a.pointers.intern p).2 ∧
      (a.internPointer p).2.contexts = a.contexts ∧ (a.internPointer p).2.objects = a.objects ∧
      (a.internPointer p).2.methods = a.methods ∧ (a.internPointer p).2.sites = a.sites := by
  unfold internPointer
  split
  · rename_i i hi
    rw [Interner.intern_of_find? hi]
    exact ⟨rfl, rfl, rfl, rfl, rfl, rfl⟩
  · rename_i hn
    exact ⟨(Interner.items_intern_of_find?_eq_none hn).1.symm, rfl, rfl, rfl, rfl, rfl⟩

theorem grows_internPointer (a : Arena) (p : Pointer) : a.Grows (a.internPointer p).2 := by
  obtain ⟨-, hp, hc, ho, hm, hx⟩ := a.internPointer_eq p
  refine ⟨fun i c h => by rwa [hc], fun i o h => by rwa [ho], fun i m h => by rwa [hm],
    fun i x h => by rwa [hx], fun i q h => ?_, fun i o h => by rwa [pointsTo_internPointer]⟩
  rw [hp]
  exact Interner.get?_intern_of_some h

theorem location?_internPointer {p : Pointer} {l : Location} (hl : a.locate? p = some l) :
    (a.internPointer p).2.location? (a.internPointer p).1 = some l := by
  refine location?_eq_some_iff.2 ⟨p, ?_, (a.grows_internPointer p).locate? hl⟩
  rw [(a.internPointer_eq p).2.1, (a.internPointer_eq p).1]
  exact Interner.get?_intern_self

theorem interns_internPointer {p : Pointer} {l : Location} (hl : a.locate? p = some l) :
    a.Interns (a.internPointer p).2 (.location l) := by
  obtain ⟨hid, hp, hc, ho, hm, hx⟩ := a.internPointer_eq p
  refine ⟨a.grows_internPointer p, fun i => pointsTo_internPointer, fun i c h => Or.inl (hc ▸ h),
    fun i h => Or.inl (ho ▸ h), fun i h => Or.inl (hm ▸ h), fun i h => Or.inl (hx ▸ h), fun i h => ?_⟩
  rw [hp] at h
  refine (Interner.lt_size_of_intern h).imp id fun h => ⟨l, ?_, rfl⟩
  rw [h, ← hid]
  exact location?_internPointer hl

end

end Arena

end PointsTo
