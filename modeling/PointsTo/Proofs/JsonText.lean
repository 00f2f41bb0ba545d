import Mathlib.Data.List.TakeWhile
import Mathlib.Data.Option.Basic
import PointsTo.Json.Printer
import PointsTo.Json.Reader

/-!
# Written JSON reads back

`parse?_pretty` says that the reader finds in the written text of a value the value itself, as long as
every string denotes text and every number a double. The reader takes one character at a time, so each
lemma follows it over one piece of text: a string, a number, the items of an array.
-/

namespace PointsTo.Json

/-! ## Numbers -/

theorem isNumberChar_of_isDigit {c : Char} (h : c.isDigit = true) : isNumberChar c = true := by
  simp [isNumberChar, h]

theorem isNumberChar_of_exponent? {cs : List Char} {e : Option Int}
    (h : Numeral.exponent? cs = some e) : ∀ c ∈ cs, isNumberChar c = true := by
  -- the digits behind the sign
  have hdigits : ∀ {ds : List Char} {x : Option (Option Int)},
      (if (ds.isEmpty || !ds.all Char.isDigit) = true then none else x) = some e →
        ∀ c ∈ ds, isNumberChar c = true := by
    intro ds x hx c hc
    by_cases hds : (ds.isEmpty || !ds.all Char.isDigit) = true
    · rw [if_pos hds] at hx
      cases hx
    · simp only [Bool.or_eq_true, Bool.not_eq_true', not_or, Bool.not_eq_false,
        List.all_eq_true] at hds
      exact isNumberChar_of_isDigit (hds.2 c hc)
  cases cs with
  | nil => simp
  | cons letter rest =>
    by_cases hletter : (letter = 'e' || letter = 'E') = true
    · simp only [Numeral.exponent?, hletter, if_true] at h
      have hl : isNumberChar letter = true := by
        rcases Bool.or_eq_true_iff.1 hletter with hl | hl
        · rw [of_decide_eq_true hl]
          decide
        · rw [of_decide_eq_true hl]
          decide
      rw [List.forall_mem_cons]
      refine ⟨hl, ?_⟩
      split at h
      · rw [List.forall_mem_cons]
        exact ⟨by decide, hdigits h⟩
      · rw [List.forall_mem_cons]
        exact ⟨by decide, hdigits h⟩
      · exact hdigits h
    · simp [Numeral.exponent?, hletter] at h

/-- Digits may stand before whatever stands in a number. -/
theorem isNumberChar_of_dropWhile {cs : List Char}
    (h : ∀ c ∈ cs.dropWhile Char.isDigit, isNumberChar c = true) : ∀ c ∈ cs, isNumberChar c = true := by
  intro c hc
  rw [← List.takeWhile_append_dropWhile (p := Char.isDigit) (l := cs), List.mem_append] at hc
  rcases hc with hc | hc
  · exact isNumberChar_of_isDigit (List.mem_takeWhile_imp hc)
  · exact h c hc

theorem isNumberChar_of_tail? {cs : List Char} {t : Option (List Char) × Option Int}
    (h : Numeral.tail? cs = some t) : ∀ c ∈ cs, isNumberChar c = true := by
  unfold Numeral.tail? at h
  split at h
  · rename_i rest
    by_cases hds : (rest.takeWhile Char.isDigit).isEmpty = true
    · simp [hds] at h
    · rw [if_neg hds, Option.map_eq_some_iff] at h
      obtain ⟨e, he, -⟩ := h
      rw [List.forall_mem_cons]
      exact ⟨by decide, isNumberChar_of_dropWhile (isNumberChar_of_exponent? he)⟩
  · obtain ⟨e, he, -⟩ := Option.map_eq_some_iff.1 h
    exact isNumberChar_of_exponent? he

theorem isNumberChar_of_unsigned? {cs : List Char} {negative : Bool} {n : Numeral}
    (h : Numeral.unsigned? negative cs = some n) :
    (∀ c ∈ cs, isNumberChar c = true) ∧ ∃ c ∈ cs.head?, c.isDigit = true := by
  unfold Numeral.unsigned? at h
  dsimp only at h
  split at h
  · cases h
  · rename_i hwhole
    obtain ⟨t, ht, -⟩ := Option.map_eq_some_iff.1 h
    refine ⟨isNumberChar_of_dropWhile (isNumberChar_of_tail? ht), ?_⟩
    cases cs with
    | nil => simp at hwhole
    | cons c cs =>
      refine ⟨c, rfl, ?_⟩
      by_contra hc
      simp [hc] at hwhole

/-- A number is written with characters of numbers, and starts with a digit or a sign. -/
theorem isNumberChar_of_parse? {cs : List Char} {n : Numeral} (h : Numeral.parse? cs = some n) :
    (∀ c ∈ cs, isNumberChar c = true) ∧ ∃ c ∈ cs.head?, (c.isDigit || c = '-') = true := by
  unfold Numeral.parse? at h
  split at h
  · rename_i rest
    obtain ⟨hrest, -⟩ := isNumberChar_of_unsigned? h
    rw [List.forall_mem_cons]
    exact ⟨⟨by decide, hrest⟩, '-', rfl, by decide⟩
  · obtain ⟨hcs, c, hc, hdigit⟩ := isNumberChar_of_unsigned? h
    exact ⟨hcs, c, hc, by simp [hdigit]⟩

/-! ## Strings -/

theorem hexValue?_hexDigit : ∀ n < 16, hexValue? (hexDigit n) = some n := by decide

namespace Reader

/-- The reader inside a string whose characters so far denote text, last one first. -/
def inString (r : Reader) (chars : List Char) : Reader := { r with lexeme := .string ⟨chars, none, false⟩ }

/-- A one-letter escape is read as the character it stands for. -/
theorem foldlM_letter (r : Reader) (chars rest : List Char) {letter c : Char} (hu : letter ≠ 'u')
    (h : unescape? letter = some c) : ('\\' :: letter :: rest).foldlM step (r.inString chars) =
      rest.foldlM step (r.inString (c :: chars)) := by
  simp [step, inString, StringSoFar.push, hu, h]

/-- A control character is read from its code. -/
theorem foldlM_hex (r : Reader) (chars rest : List Char) {c : Char} (hc : c.toNat < 0x20) :
    ('\\' :: 'u' :: '0' :: '0' :: hexDigit (c.toNat / 16) :: hexDigit (c.toNat % 16) :: rest).foldlM
      step (r.inString chars) = rest.foldlM step (r.inString (c :: chars)) := by
  have hhigh := hexValue?_hexDigit (c.toNat / 16) (by omega)
  have hlow := hexValue?_hexDigit (c.toNat % 16) (by omega)
  have hzero : hexValue? '0' = some 0 := by decide
  have hvalue : 16 * (c.toNat / 16) + c.toNat % 16 = c.toNat := Nat.div_add_mod _ _
  have hunit : StringSoFar.pushUnit ⟨chars, none, false⟩ c.toNat = ⟨c :: chars, none, false⟩ := by
    simp only [StringSoFar.pushUnit, Char.ofNat_toNat]
    rw [if_neg (by omega), if_neg (by omega)]
  simp [step, inString, hzero, hhigh, hlow, hvalue, hunit]

/-- A character is read as it was written. -/
theorem foldlM_escapeChar (r : Reader) (chars rest : List Char) (c : Char) :
    (escapeChar c ++ rest).foldlM step (r.inString chars) =
      rest.foldlM step (r.inString (c :: chars)) := by
  unfold escapeChar
  split_ifs with hquote hslash hb hf hn hr ht hcontrol
  · exact foldlM_letter r chars rest (by decide) (congrArg some hquote.symm)
  · exact foldlM_letter r chars rest (by decide) (congrArg some hslash.symm)
  · exact foldlM_letter r chars rest (by decide) (congrArg some hb.symm)
  · exact foldlM_letter r chars rest (by decide) (congrArg some hf.symm)
  · exact foldlM_letter r chars rest (by decide) (congrArg some hn.symm)
  · exact foldlM_letter r chars rest (by decide) (congrArg some hr.symm)
  · exact foldlM_letter r chars rest (by decide) (congrArg some ht.symm)
  · exact foldlM_hex r chars rest hcontrol
  · simp [step, inString, StringSoFar.push, hquote, hslash, hcontrol]

theorem foldlM_escaped (r : Reader) (s chars rest : List Char) :
    (s.flatMap escapeChar ++ rest).foldlM step (r.inString chars) =
      rest.foldlM step (r.inString (s.reverse ++ chars)) := by
  induction s generalizing chars with
  | nil => rfl
  | cons c s ih =>
    rw [List.flatMap_cons, List.append_assoc, foldlM_escapeChar, ih, List.reverse_cons,
      List.append_assoc]
    rfl

/-! ## Between two pieces -/

/-- The reader between two pieces of a value. -/
def between (frames : List Frame) (expect : Expect) : Reader := ⟨.gap, frames, expect, none⟩

variable {frames : List Frame} {expect : Expect} {rest : List Char}

theorem lexeme_of_finishValue {r r' : Reader} {j : Json} (h : r.finishValue j = some r') :
    r'.lexeme = .gap := by
  unfold finishValue at h
  split at h
  · split at h <;> cases h <;> rfl
  · cases h

/-- Where a first item may stand, a value is read as elsewhere. -/
theorem finishValue_between (he : expect = .value ∨ expect = .itemOrEnd) (j : Json) :
    (between frames expect).finishValue j = (between frames .value).finishValue j := by
  rcases he with rfl | rfl
  · rfl
  · rfl

theorem foldlM_newline (depth : Nat) : (newline depth ++ rest).foldlM step (between frames expect) =
    rest.foldlM step (between frames expect) := by
  have hspaces : ∀ n, (List.replicate n ' ' ++ rest).foldlM step (between frames expect) =
      rest.foldlM step (between frames expect) := by
    intro n
    induction n with
    | zero => rfl
    | succ n ih => exact ih
  exact hspaces (2 * depth)

/-- A string is read where a key or a value is expected. -/
theorem foldlM_quote (s : List Char) : (quote s ++ rest).foldlM step (between frames expect) =
    ((between frames expect).finishString (some (String.ofList s))).bind (rest.foldlM step) := by
  have hopen : ∀ cs : List Char, ('\x22' :: cs).foldlM step (between frames expect) =
      cs.foldlM step ((between frames expect).inString []) := fun _ => rfl
  have hclose : step ((between frames expect).inString s.reverse) '\x22' =
      (between frames expect).finishString (some (String.ofList s)) := by
    simp [step, inString, StringSoFar.text, finishString, finishValue]
  rw [quote, List.cons_append, hopen, List.append_assoc, foldlM_escaped, List.append_nil,
    List.singleton_append, List.foldlM_cons, hclose]
  rfl

theorem stepGap_digit {c : Char} (hc : (c.isDigit || c = '-') = true) :
    stepGap (between frames expect) c = some { between frames expect with lexeme := .number [c] } := by
  have hspace : isSpace c = false := by
    by_contra hspace
    simp only [isSpace, Bool.not_eq_false, Bool.or_eq_true, decide_eq_true_eq] at hspace
    rcases hspace with ((rfl | rfl) | rfl) | rfl <;> exact absurd hc (by decide)
  unfold stepGap
  rw [hspace]
  simp only [Bool.false_eq_true, if_false]
  split
  all_goals first | exact absurd hc (by decide) | exact if_pos hc

theorem foldlM_numberChars {cs : List Char} (hcs : ∀ c ∈ cs, isNumberChar c = true) (r : Reader)
    (chars : List Char) : (cs ++ rest).foldlM step { r with lexeme := .number chars } =
      rest.foldlM step { r with lexeme := .number (cs.reverse ++ chars) } := by
  induction cs generalizing chars with
  | nil => rfl
  | cons c cs ih =>
    rw [List.forall_mem_cons] at hcs
    have hstep : step { r with lexeme := .number chars } c =
        some { r with lexeme := .number (c :: chars) } := by
      simp [step, hcs.1]
    rw [List.cons_append, List.foldlM_cons, hstep, List.reverse_cons, List.append_assoc]
    exact ih hcs.2 (c :: chars)

/-- The characters of a number are collected. -/
theorem foldlM_literal {literal : String} (hn : (Numeral.parse? literal.toList).isSome = true) :
    (literal.toList ++ rest).foldlM step (between frames expect) =
      rest.foldlM step { between frames expect with lexeme := .number literal.toList.reverse } := by
  obtain ⟨n, hparse⟩ := Option.isSome_iff_exists.1 hn
  obtain ⟨hchars, c, hc, hdigit⟩ := isNumberChar_of_parse? hparse
  obtain ⟨cs, hcs⟩ : ∃ cs, literal.toList = c :: cs := List.head?_eq_some_iff.1 hc
  rw [hcs] at hchars ⊢
  have hfirst : step (between frames expect) c =
      some { between frames expect with lexeme := .number [c] } := stepGap_digit hdigit
  rw [List.cons_append, List.foldlM_cons, hfirst, List.reverse_cons]
  exact foldlM_numberChars (List.forall_mem_cons.1 hchars).2 _ _

theorem finishNumber_literal {literal : String} (hn : (Numeral.parse? literal.toList).isSome = true) :
    finishNumber { between frames expect with lexeme := .number literal.toList.reverse }
      literal.toList.reverse = (between frames expect).finishValue (.num literal) := by
  rw [finishNumber, List.reverse_reverse, if_pos hn, String.ofList_toList]
  rfl

/-- A number ends where something else follows. -/
theorem foldlM_number {literal : String} (hn : (Numeral.parse? literal.toList).isSome = true)
    (hrest : ∃ c ∈ rest.head?, isNumberChar c = false) :
    (literal.toList ++ rest).foldlM step (between frames expect) =
      ((between frames expect).finishValue (.num literal)).bind (rest.foldlM step) := by
  obtain ⟨d, hd, hnumber⟩ := hrest
  obtain ⟨ds, rfl⟩ := List.head?_eq_some_iff.1 hd
  have hend : step { between frames expect with lexeme := .number literal.toList.reverse } d =
      ((between frames expect).finishValue (.num literal)).bind (·.stepGap d) := by
    simp [step, hnumber, finishNumber_literal hn]
  rw [foldlM_literal hn, List.foldlM_cons, hend]
  cases hvalue : (between frames expect).finishValue (.num literal) with
  | none => rfl
  | some r =>
    have hstep : step r d = r.stepGap d := by rw [step, lexeme_of_finishValue hvalue]
    simp [hstep]

/-! ## Whole values -/

theorem head?_prettyItems (depth : Nat) (js : List Json) :
    ∃ c ∈ (prettyItems depth js ++ rest).head?, isNumberChar c = false := by
  cases js with
  | nil => exact ⟨'\n', rfl, by decide⟩
  | cons j js => exact ⟨',', rfl, by decide⟩

theorem head?_prettyMembers (depth : Nat) (ms : List (JsonText × Json)) :
    ∃ c ∈ (prettyMembers depth ms ++ rest).head?, isNumberChar c = false := by
  cases ms with
  | nil => exact ⟨'\n', rfl, by decide⟩
  | cons m ms => exact ⟨',', rfl, by decide⟩

/-- A key on a line of its own is read up to the value behind it. -/
theorem foldlM_key (depth : Nat) (ms : List (JsonText × Json)) (k : String)
    (he : expect = .key ∨ expect = .keyOrEnd) :
    (newline depth ++ (textChars (some k) ++ ':' :: ' ' :: rest)).foldlM step
        (between (.object ms :: frames) expect) =
      rest.foldlM step (between (.member ms (some k) :: frames) .value) := by
  have hkey : (between (.object ms :: frames) expect).finishString (some k) =
      some (between (.member ms (some k) :: frames) .colon) := if_pos he
  rw [foldlM_newline, textChars, Option.getD_some, foldlM_quote, String.ofList_toList, hkey]
  rfl

theorem step_bracket (he : expect = .value ∨ expect = .itemOrEnd) :
    step (between frames expect) '[' = some (between (.array [] :: frames) .itemOrEnd) := by
  show (between frames expect).enter (.array []) .itemOrEnd = _
  exact if_pos he

theorem step_brace (he : expect = .value ∨ expect = .itemOrEnd) :
    step (between frames expect) '{' = some (between (.object [] :: frames) .keyOrEnd) := by
  show (between frames expect).enter (.object []) .keyOrEnd = _
  exact if_pos he

-- the recursion is that of the writer: values, and the items and members behind the first one
mutual

/-- A value is read where one is expected. A number ends only where something else follows. -/
theorem foldlM_value (frames : List Frame) (expect : Expect) (rest : List Char) (depth : Nat) :
    ∀ j : Json, j.isPlain = true → (expect = .value ∨ expect = .itemOrEnd) →
      ((∃ c ∈ rest.head?, isNumberChar c = false) ∨ ∀ literal, j ≠ .num literal) →
      (prettyChars depth j ++ rest).foldlM step (between frames expect) =
        ((between frames .value).finishValue j).bind (rest.foldlM step)
  | .null, _, he, _ => by
    rw [← finishValue_between he]
    rfl
  | .bool b, _, he, _ => by
    rw [← finishValue_between he]
    cases b with
    | true => rfl
    | false => rfl
  | .num literal, hj, he, hrest => by
    have hn : (Numeral.parse? literal.toList).isSome = true := by
      rw [isPlain] at hj
      exact Option.isSome_of_isSome_bind hj
    rw [← finishValue_between he]
    exact foldlM_number hn (hrest.resolve_right fun h => h literal rfl)
  | .str t, hj, he, _ => by
    obtain ⟨s, rfl⟩ := Option.isSome_iff_exists.1 hj
    rw [prettyChars, textChars, Option.getD_some, foldlM_quote, String.ofList_toList,
      ← finishValue_between he]
    rcases he with rfl | rfl
    · rfl
    · rfl
  | .arr [], _, he, _ => by
    show ('[' :: ']' :: rest).foldlM step (between frames expect) = _
    rw [List.foldlM_cons, step_bracket he]
    rfl
  | .arr (j :: js), hj, he, _ => by
    rw [isPlain, arePlain, Bool.and_eq_true] at hj
    have hitem := foldlM_value (.array [] :: frames) .itemOrEnd (prettyItems depth js ++ rest)
      (depth + 1) j hj.1 (Or.inr rfl) (Or.inl (head?_prettyItems depth js))
    have hitems := foldlM_items frames rest depth js [j] hj.2
    rw [prettyChars, List.cons_append, List.foldlM_cons, step_bracket he, List.append_assoc,
      List.append_assoc]
    show (newline (depth + 1) ++ _).foldlM step (between (.array [] :: frames) .itemOrEnd) = _
    rw [foldlM_newline]
    exact hitem.trans hitems
  | .obj [], _, he, _ => by
    show ('{' :: '}' :: rest).foldlM step (between frames expect) = _
    rw [List.foldlM_cons, step_brace he]
    rfl
  | .obj ((k, j) :: ms), hj, he, _ => by
    rw [isPlain, membersPlain, Bool.and_eq_true, Bool.and_eq_true] at hj
    obtain ⟨⟨hk, hj⟩, hms⟩ := hj
    obtain ⟨k, rfl⟩ := Option.isSome_iff_exists.1 hk
    have hmember := foldlM_value (.member [] (some k) :: frames) .value (prettyMembers depth ms ++ rest)
      (depth + 1) j hj (Or.inl rfl) (Or.inl (head?_prettyMembers depth ms))
    have hmembers := foldlM_members frames rest depth ms [(some k, j)] hms
    rw [prettyChars, List.cons_append, List.foldlM_cons, step_brace he]
    simp only [List.append_assoc, List.cons_append]
    exact (foldlM_key _ _ _ (Or.inr rfl)).trans (hmember.trans hmembers)

/-- The items behind the first ones are read, and the end of the array. -/
theorem foldlM_items (frames : List Frame) (rest : List Char) (depth : Nat) :
    ∀ js items : List Json, arePlain js = true →
      (prettyItems depth js ++ rest).foldlM step (between (.array items :: frames) .commaOrEnd) =
        ((between frames .value).finishValue (.arr (items.reverse ++ js))).bind (rest.foldlM step)
  | [], items, _ => by
    have hclose : step (between (.array items :: frames) .commaOrEnd) ']' =
        (between frames .value).finishValue (.arr items.reverse) := rfl
    rw [prettyItems, List.append_assoc, foldlM_newline, List.singleton_append, List.foldlM_cons, hclose,
      List.append_nil]
    rfl
  | j :: js, items, h => by
    rw [arePlain, Bool.and_eq_true] at h
    have hcomma : step (between (.array items :: frames) .commaOrEnd) ',' =
        some (between (.array items :: frames) .value) := rfl
    have hitem := foldlM_value (.array items :: frames) .value (prettyItems depth js ++ rest)
      (depth + 1) j h.1 (Or.inl rfl) (Or.inl (head?_prettyItems depth js))
    have hitems := foldlM_items frames rest depth js (j :: items) h.2
    rw [List.reverse_cons, List.append_assoc] at hitems
    rw [prettyItems, List.cons_append, List.foldlM_cons, hcomma, List.append_assoc, List.append_assoc]
    show (newline (depth + 1) ++ _).foldlM step (between (.array items :: frames) .value) = _
    rw [foldlM_newline]
    exact hitem.trans hitems

/-- The members behind the first ones are read, and the end of the object. -/
theorem foldlM_members (frames : List Frame) (rest : List Char) (depth : Nat) :
    ∀ ms members : List (JsonText × Json), membersPlain ms = true →
      (prettyMembers depth ms ++ rest).foldlM step (between (.object members :: frames) .commaOrEnd) =
        ((between frames .value).finishValue (.obj (members.reverse ++ ms))).bind (rest.foldlM step)
  | [], members, _ => by
    have hclose : step (between (.object members :: frames) .commaOrEnd) '}' =
        (between frames .value).finishValue (.obj members.reverse) := rfl
    rw [prettyMembers, List.append_assoc, foldlM_newline, List.singleton_append, List.foldlM_cons,
      hclose, List.append_nil]
    rfl
  | (k, j) :: ms, members, h => by
    rw [membersPlain, Bool.and_eq_true, Bool.and_eq_true] at h
    obtain ⟨⟨hk, hj⟩, hms⟩ := h
    obtain ⟨k, rfl⟩ := Option.isSome_iff_exists.1 hk
    have hcomma : step (between (.object members :: frames) .commaOrEnd) ',' =
        some (between (.object members :: frames) .key) := rfl
    have hmember := foldlM_value (.member members (some k) :: frames) .value
      (prettyMembers depth ms ++ rest) (depth + 1) j hj (Or.inl rfl)
      (Or.inl (head?_prettyMembers depth ms))
    have hmembers := foldlM_members frames rest depth ms ((some k, j) :: members) hms
    rw [List.reverse_cons, List.append_assoc] at hmembers
    rw [prettyMembers, List.cons_append, List.foldlM_cons, hcomma]
    simp only [List.append_assoc, List.cons_append]
    exact (foldlM_key _ _ _ (Or.inl rfl)).trans (hmember.trans hmembers)

end

end Reader

/-- The text of a plain value reads back as the value. -/
theorem parse?_pretty {j : Json} (h : j.isPlain = true) : parse? j.pretty = some j := by
  rw [parse?, pretty, String.toList_ofList, parseChars?]
  by_cases hnum : ∃ literal, j = .num literal
  · -- nothing follows the number, so the end of the text ends it
    obtain ⟨literal, rfl⟩ := hnum
    have hn : (Numeral.parse? literal.toList).isSome = true := by
      rw [isPlain] at h
      exact Option.isSome_of_isSome_bind h
    have hread : literal.toList.foldlM Reader.step (Reader.between [] .value) =
        some { Reader.between [] .value with lexeme := .number literal.toList.reverse } := by
      rw [← List.append_nil literal.toList, Reader.foldlM_literal hn, List.append_nil]
      rfl
    show (literal.toList.foldlM Reader.step (Reader.between [] .value)).bind Reader.finish = _
    rw [hread]
    show (Reader.finishNumber { Reader.between [] .value with lexeme := .number literal.toList.reverse }
      literal.toList.reverse).bind (·.result) = _
    rw [Reader.finishNumber_literal hn]
    rfl
  · have hread := Reader.foldlM_value [] .value [] 0 j h (Or.inl rfl)
      (Or.inr fun literal hj => hnum ⟨literal, hj⟩)
    rw [List.append_nil] at hread
    show ((prettyChars 0 j).foldlM Reader.step (Reader.between [] .value)).bind Reader.finish = some j
    rw [hread]
    rfl

end PointsTo.Json
