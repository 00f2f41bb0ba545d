import Mathlib.Data.List.TakeWhile
import PointsTo.Json.Record

/-!
# Reading the parts of a record

A JSON value `Carries` a value of some type if it is plain and reads as it. This file says so of numbers,
texts, options and lists, and finds the fields of a record that was written with all of them
(`slots?_record`). What is made of these parts is then read part by part.
-/

namespace PointsTo.Json

/-! ## Integers -/

/-- Only the digits of zero start with a zero. -/
theorem eq_zero_of_head?_toDigits {n : Nat} (h : (Nat.toDigits 10 n).head? = some '0') : n = 0 := by
  induction n using Nat.strongRecOn with
  | ind n ih =>
    by_cases hlt : n < 10
    · rw [Nat.toDigits_of_lt_base hlt] at h
      have hdigit : ∀ n < 10, n.digitChar = '0' → n = 0 := by decide
      exact hdigit n hlt (Option.some.inj h)
    · have hhead : (Nat.toDigits 10 (n / 10)).head? = some '0' := by
        rw [Nat.toDigits_of_base_le (by decide) (by omega)] at h
        cases hds : Nat.toDigits 10 (n / 10) with
        | nil => exact absurd hds Nat.toDigits_ne_nil
        | cons d ds =>
          rw [hds] at h
          exact h
      have hzero := ih (n / 10) (by omega) hhead
      omega

/-- The digits of a number are a literal without sign, fraction and exponent. -/
theorem parse?_toDigits (n : Nat) :
    Numeral.parse? (Nat.toDigits 10 n) = some ⟨false, Nat.toDigits 10 n, none, none⟩ := by
  have hdigits : ∀ c ∈ Nat.toDigits 10 n, c.isDigit = true := fun c hc =>
    Nat.isDigit_of_mem_toDigits (by decide) (by decide) hc
  have htake : (Nat.toDigits 10 n).takeWhile Char.isDigit = Nat.toDigits 10 n :=
    List.takeWhile_eq_self_iff.2 hdigits
  have hdrop : (Nat.toDigits 10 n).dropWhile Char.isDigit = [] := List.dropWhile_eq_nil_iff.2 hdigits
  have hlead : ¬((Nat.toDigits 10 n).isEmpty ||
      ((Nat.toDigits 10 n).head? = some '0' && (Nat.toDigits 10 n).length ≠ 1)) = true := by
    simp only [Bool.or_eq_true, List.isEmpty_iff, Bool.and_eq_true, decide_eq_true_eq, not_or,
      not_and, not_not]
    refine ⟨Nat.toDigits_ne_nil, fun hzero => ?_⟩
    rw [eq_zero_of_head?_toDigits hzero]
    rfl
  have hunsigned : Numeral.unsigned? false (Nat.toDigits 10 n) =
      some ⟨false, Nat.toDigits 10 n, none, none⟩ := by
    simp only [Numeral.unsigned?, htake, hdrop]
    rw [if_neg hlead]
    rfl
  unfold Numeral.parse?
  split
  · rename_i rest hrest
    -- a sign is no digit
    have hsign := hdigits '-' (by rw [hrest]; exact List.mem_cons_self)
    exact absurd hsign (by decide)
  · exact hunsigned

theorem ofDigits_toDigits (n : Nat) : Numeral.ofDigits (Nat.toDigits 10 n) = n :=
  Nat.ofDigitChars_ten_toDigits

/-- An integer below the bound is read as it was written. -/
theorem nat?_ofNat {n bound : Nat} (h : n < bound) : nat? bound (ofNat n) = some n := by
  simp [nat?, ofNat, parse?_toDigits, Numeral.nat?, ofDigits_toDigits, h]

/-- An integer of 64 bits is a double. -/
theorem isPlain_ofNat {n : Nat} (h : n < Nat.pow 2 64) : (ofNat n).isPlain = true := by
  have hfit : ∀ digits, Numeral.fitWord n 0 digits = (n, 0) := by
    intro digits
    cases digits with
    | zero => rfl
    | succ d => rw [Numeral.fitWord, if_pos h]
  have hfloat : (Numeral.float? ⟨false, Nat.toDigits 10 n, none, none⟩).isSome = true := by
    simp [Numeral.float?, Numeral.significand, Numeral.scale, ofDigits_toDigits, hfit, Numeral.scaled?]
  simpa [isPlain, ofNat, parse?_toDigits] using hfloat

/-! ## Arrays and objects -/

theorem arePlain_iff {js : List Json} : arePlain js = true ↔ ∀ j ∈ js, j.isPlain = true := by
  induction js with
  | nil => simp [arePlain]
  | cons j js ih => simp [arePlain, ih]

theorem isPlain_ofList {α : Type} {write : α → Json} {xs : List α} :
    (ofList write xs).isPlain = true ↔ ∀ x ∈ xs, (write x).isPlain = true := by
  rw [ofList, isPlain, arePlain_iff, List.forall_mem_map]

theorem isPlain_record {members : List (String × Json)} :
    (record members).isPlain = true ↔ ∀ m ∈ members, m.2.isPlain = true := by
  rw [record, isPlain]
  induction members with
  | nil => simp [membersPlain]
  | cons m ms ih =>
    rw [List.map_cons, membersPlain, Bool.and_eq_true, ih, List.forall_mem_cons]
    simp

theorem depth_ofList_le {α : Type} {write : α → Json} {xs : List α} {n : Nat} :
    (ofList write xs).depth ≤ n + 1 ↔ ∀ x ∈ xs, (write x).depth ≤ n := by
  rw [ofList, depth, Nat.add_le_add_iff_right]
  induction xs with
  | nil => simp [itemsDepth]
  | cons x xs ih => rw [List.map_cons, itemsDepth, Nat.max_le, ih, List.forall_mem_cons]

theorem depth_record_le {members : List (String × Json)} {n : Nat} :
    (record members).depth ≤ n + 1 ↔ ∀ m ∈ members, m.2.depth ≤ n := by
  rw [record, depth, Nat.add_le_add_iff_right]
  induction members with
  | nil => simp [membersDepth]
  | cons m ms ih => rw [List.map_cons, membersDepth, Nat.max_le, ih, List.forall_mem_cons]

theorem mapM_map_eq_some {α β γ : Type} {write : α → β} {read : β → Option γ} {g : α → γ}
    {xs : List α} (h : ∀ x ∈ xs, read (write x) = some (g x)) :
    (xs.map write).mapM read = some (xs.map g) := by
  induction xs with
  | nil => rfl
  | cons x xs ih =>
    rw [List.forall_mem_cons] at h
    rw [List.map_cons, List.mapM_cons, h.1, ih h.2]
    rfl

theorem members?_record (members : List (String × Json)) :
    (record members).members? = some members := by
  have h : (record members).members? = some (members.map id) := mapM_map_eq_some fun _ _ => rfl
  rwa [List.map_id] at h

/-- Of a key that occurs once the value is found. -/
theorem slotOf?_of_mem {members : List (String × Json)} {k : String} {j : Json}
    (h : (members.map (·.1)).Nodup) (hmem : (k, j) ∈ members) :
    slotOf? members k = some (.found j) := by
  have hfilter : members.filter (·.1 = k) = [(k, j)] := by
    induction members with
    | nil => cases hmem
    | cons m ms ih =>
      rw [List.map_cons, List.nodup_cons] at h
      rcases List.mem_cons.1 hmem with rfl | hmem
      · have hrest : ms.filter (·.1 = k) = [] := by
          rw [List.filter_eq_nil_iff]
          intro m hm hk
          exact h.1 (List.mem_map.2 ⟨m, hm, of_decide_eq_true hk⟩)
        simp [hrest]
      · have hne : m.1 ≠ k := by
          rintro rfl
          exact h.1 (List.mem_map.2 ⟨_, hmem, rfl⟩)
        rw [List.filter_cons_of_neg (by simpa using hne)]
        exact ih h.2 hmem
  rw [slotOf?, hfilter]

/-- The fields of a record that has each of them once are found in their order. -/
theorem slots?_record {members : List (String × Json)} {names : List String}
    (hnames : members.map (·.1) = names) (h : names.Nodup) :
    (record members).slots? names = some (members.map fun m => .found m.2) := by
  have hslots : names.mapM (slotOf? members) = some (members.map fun m => .found m.2) := by
    subst hnames
    exact mapM_map_eq_some fun m hm => slotOf?_of_mem h hm
  show (record members).members?.bind (fun ms => names.mapM (slotOf? ms)) = _
  rw [members?_record]
  exact hslots

namespace Slot

variable {α : Type} {read : Json → Option α} {j : Json}

@[simp] theorem required_found : (found j).required read = read j := rfl

@[simp] theorem orElse_found {d : α} : (found j).orElse d read = read j := rfl

@[simp] theorem keyed_found : (found j).keyed read = nullable? read j := rfl

@[simp] theorem optional_found : (found j).optional read = nullable? read j := rfl

end Slot

/-! ## What a value carries -/

/-- The value is plain and reads as `a`. -/
structure Carries {α : Type} (read : Json → Option α) (j : Json) (a : α) : Prop where
  plain : j.isPlain = true
  reads : read j = some a

theorem carries_id {n : Nat} (h : n < Nat.pow 2 32) : Carries id? (ofNat n) n where
  plain := isPlain_ofNat (Nat.lt_trans h (by decide))
  reads := nat?_ofNat h

theorem carries_text (s : String) : Carries text? (ofString s) s := ⟨rfl, rfl⟩

theorem carries_bool (b : Bool) : Carries bool? (.bool b) b := ⟨rfl, rfl⟩

theorem carries_optionalId {o : Option Nat} (h : ∀ n ∈ o, n < Nat.pow 2 32) :
    Carries (nullable? id?) (ofOption ofNat o) o := by
  cases o with
  | none => exact ⟨rfl, rfl⟩
  | some n =>
    have hid := carries_id (h n rfl)
    refine ⟨hid.plain, ?_⟩
    show ((ofNat n).id?).map some = _
    rw [hid.reads]
    rfl

theorem carries_list {α : Type} {read : Json → Option α} {write : α → Json} {xs : List α}
    (h : ∀ x ∈ xs, Carries read (write x) x) : Carries (list? read) (ofList write xs) xs where
  plain := isPlain_ofList.2 fun x hx => (h x hx).plain
  reads := by
    have hread : list? read (ofList write xs) = some (xs.map id) :=
      mapM_map_eq_some fun x hx => (h x hx).reads
    rwa [List.map_id] at hread

theorem carries_ids {xs : List Nat} (h : ∀ n ∈ xs, n < Nat.pow 2 32) :
    Carries (list? id?) (ofList ofNat xs) xs :=
  carries_list fun n hn => carries_id (h n hn)

end PointsTo.Json
