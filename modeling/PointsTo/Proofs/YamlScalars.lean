import PointsTo.Yaml.Plain
import PointsTo.Yaml.Printer

/-!
# Scalars are read back

Text that has no line break is written on one line, whatever the way, and the reader of that way stops
behind it with the text. Between single quotes this is so character by character (`singleQuoted_flatMap`),
and so it is between double quotes, where an escape counts as the character that it stands for
(`doubleQuoted_flatMap`). Without quotes the printer leaves what no reader stops at: none of the characters
ends the scalar where it stands (`endsPlain_eq_false`), so all of them are passed (`plainFrom_bare`), in any
column to the right of the indentation and up to the next line (`plainAt_append`).
-/

namespace PointsTo.Yaml

/-! ## Lines -/

/-- Are all characters on one line? -/
def OnLine (cs : List Char) : Prop := ∀ c ∈ cs, isBreak c = false

namespace OnLine

variable {c : Char} {cs : List Char}

instance : Decidable (OnLine cs) := List.decidableBAll _ cs

theorem cons_iff : OnLine (c :: cs) ↔ isBreak c = false ∧ OnLine cs := List.forall_mem_cons

theorem spaces (n : Nat) : OnLine (spaces n) := by
  intro c hc
  rw [List.eq_of_mem_replicate hc]
  rfl

theorem column_eq (h : OnLine cs) (p : Position) :
    (cs.foldl Position.step p).column = p.column + cs.length := by
  induction cs generalizing p with
  | nil => rfl
  | cons c cs ih =>
    obtain ⟨hc, hcs⟩ := cons_iff.1 h
    have hstep : (p.step c).column = p.column + 1 := by rw [Position.step, if_neg (by simp [hc])]
    rw [List.foldl_cons, ih hcs, hstep, List.length_cons]
    omega

theorem line_eq (h : OnLine cs) (p : Position) : (cs.foldl Position.step p).line = p.line := by
  induction cs generalizing p with
  | nil => rfl
  | cons c cs ih =>
    obtain ⟨hc, hcs⟩ := cons_iff.1 h
    rw [List.foldl_cons, ih hcs, Position.step, if_neg (by simp [hc])]

end OnLine

theorem isBreak_of_isWritable {c : Char} (h : isWritable c = true) : isBreak c = false := by
  rw [isWritable, Bool.and_eq_true, Bool.not_eq_true'] at h
  exact h.2

theorem offset_foldl_step_le (cs : List Char) (p : Position) :
    (cs.foldl Position.step p).offset ≤ p.offset + 4 * cs.length := by
  induction cs generalizing p with
  | nil => exact Nat.le_refl _
  | cons c cs ih =>
    have hstep : (p.step c).offset ≤ p.offset + 4 := by
      have hsize := c.utf8Size_le_four
      unfold Position.step
      split <;> exact Nat.add_le_add_left hsize _
    rw [List.foldl_cons, List.length_cons]
    have hcs := ih (p.step c)
    omega

theorem column_step_break {c : Char} (h : isBreak c = true) (p : Position) : (p.step c).column = 0 := by
  rw [Position.step, if_pos h]

theorem line_step_break {c : Char} (h : isBreak c = true) (p : Position) :
    (p.step c).line = p.line + 1 := by
  rw [Position.step, if_pos h]

theorem column_step {c : Char} (h : isBreak c = false) (p : Position) :
    (p.step c).column = p.column + 1 := by
  rw [Position.step, if_neg (by simp [h])]

/-- The rest of a text is empty, or it starts with a line that is indented by less than `below` and holds
something. -/
def StartsLine (below : Nat) (cs : List Char) : Prop :=
  cs = [] ∨ ∃ n c rest, n < below ∧ isSpace c = false ∧ c ≠ '#' ∧ c ≠ byteOrderMark ∧
    cs = spaces n ++ c :: rest

theorem StartsLine.mono {m n : Nat} {cs : List Char} (h : StartsLine m cs) (hle : m ≤ n) :
    StartsLine n cs := by
  rcases h with rfl | ⟨k, c, rest, hk, h⟩
  · exact Or.inl rfl
  · exact Or.inr ⟨k, c, rest, Nat.lt_of_lt_of_le hk hle, h⟩

/-! ## Without quotes -/

section

variable {b c : Char} {cs rest : List Char} {f : Folding} {p q : Position} {indent : Nat}

theorem startsSpace_append_break (cs rest : List Char) :
    startsSpace (cs ++ '\n' :: rest) = startsSpace cs := by
  cases cs <;> rfl

theorem plainFrom_space (hc : isSpace c = true) (hf : f.isBroken = false) :
    plainFrom false indent f q (c :: cs) = plainFrom false indent (f.space c) (q.step c) cs := by
  rw [plainFrom, if_pos hc, if_neg (by simp [hf])]

/-- A character belongs to the scalar if nothing ends there: neither the lines that are indented far enough,
nor the document, nor the scalar itself. -/
theorem plainFrom_char (hc : isSpace c = false) (hindent : f.isSpaced = true → indent ≤ q.column)
    (hmarker : q.column = 0 → startsMarker (c :: cs) = false) (hends : endsPlain false f c cs = false) :
    plainFrom false indent f q (c :: cs) = plainFrom false indent (f.push c) (q.step c) cs := by
  have hgoes : ((!false && f.isSpaced && q.column < indent) ||
      (q.column = 0 && startsMarker (c :: cs))) = false := by
    rw [Bool.or_eq_false_iff]
    constructor
    · cases hf : f.isSpaced with
      | false => rfl
      | true => simpa using hindent hf
    · by_cases hq : q.column = 0
      · rw [hmarker hq, Bool.and_false]
      · simp [hq]
  rw [plainFrom, if_neg (by simp [hc]), hgoes, hends]
  simp [isStrayColon]

/-! ### Text without indicators -/

theorem hasPair_tail {first second : Char → Bool} (h : hasPair first second (c :: cs) = false) :
    hasPair first second cs = false := by
  cases cs with
  | nil => rfl
  | cons d cs =>
    rw [hasPair, Bool.or_eq_false_iff] at h
    exact h.2

theorem exists_of_hasPair {first second : Char → Bool} (h : hasPair first second cs = true) :
    (∃ c ∈ cs, first c = true) ∧ ∃ c ∈ cs, second c = true := by
  induction cs with
  | nil => cases h
  | cons c cs ih =>
    cases cs with
    | nil => cases h
    | cons d cs =>
      rw [hasPair, Bool.or_eq_true, Bool.and_eq_true] at h
      rcases h with ⟨hc, hd⟩ | h
      · exact ⟨⟨c, List.mem_cons_self, hc⟩, d, List.mem_cons_of_mem c List.mem_cons_self, hd⟩
      · obtain ⟨⟨a, ha, hfirst⟩, b, hb, hsecond⟩ := ih h
        exact ⟨⟨a, List.mem_cons_of_mem c ha, hfirst⟩, b, List.mem_cons_of_mem c hb, hsecond⟩

/-- Where `b` stands in front, a scalar goes on at a character that is no indicator. -/
theorem endsPlain_eq_false (hb : isSpace b = f.isSpaced)
    (hcolon : hasPair (· = ':') isSpace (c :: cs) = false) (hlast : (c :: cs).getLast? ≠ some ':')
    (hhash : hasPair isSpace (· = '#') (b :: c :: cs) = false) :
    endsPlain false f c (cs ++ rest) = false := by
  have hcolon : (c = ':' && startsSpace (cs ++ rest)) = false := by
    by_cases hc : c = ':'
    · subst hc
      cases cs with
      | nil => exact absurd rfl hlast
      | cons d cs =>
        rw [hasPair, Bool.or_eq_false_iff] at hcolon
        exact hcolon.1
    · simp [hc]
  have hhash : (f.isSpaced && c = '#') = false := by
    rw [hasPair, Bool.or_eq_false_iff, hb] at hhash
    exact hhash.1
  rw [endsPlain, hcolon, hhash]
  rfl

/-- Text of one line is passed as a whole, whatever follows, if no indicator stands in it. -/
theorem plainFrom_bare (hline : OnLine cs) (hf : f.isBroken = false) (hb : isSpace b = f.isSpaced)
    (hcolon : hasPair (· = ':') isSpace cs = false) (hlast : cs.getLast? ≠ some ':')
    (hhash : hasPair isSpace (· = '#') (b :: cs) = false) (hindent : indent ≤ q.column)
    (hq : 0 < q.column) :
    ∃ g : Folding, g.isBroken = false ∧ g.whole = f.whole ++ cs ∧
      g.isSpaced = (b :: cs).getLast?.any isSpace ∧
      plainFrom false indent f q (cs ++ rest) = plainFrom false indent g (cs.foldl Position.step q) rest := by
  induction cs generalizing f q b with
  | nil => exact ⟨f, hf, (List.append_nil _).symm, hb.symm, rfl⟩
  | cons c cs ih =>
    obtain ⟨hc, hcs⟩ := OnLine.cons_iff.1 hline
    have hcolumn := column_step hc q
    have hlast' : cs.getLast? ≠ some ':' := by
      intro h
      refine hlast ?_
      rw [List.getLast?_cons, h]
      rfl
    -- the character is taken into the folding `e`, spaces as well as others
    have htake : ∀ e : Folding, e.isBroken = false → e.whole = f.whole ++ [c] →
        isSpace c = e.isSpaced →
        plainFrom false indent f q (c :: (cs ++ rest)) = plainFrom false indent e (q.step c) (cs ++ rest) →
        ∃ g : Folding, g.isBroken = false ∧ g.whole = f.whole ++ c :: cs ∧
          g.isSpaced = (b :: c :: cs).getLast?.any isSpace ∧
          plainFrom false indent f q (c :: (cs ++ rest)) =
            plainFrom false indent g ((c :: cs).foldl Position.step q) rest := by
      intro e he hwhole hspaced hread
      obtain ⟨g, hg, hgwhole, hgspaced, hgread⟩ := ih hcs he hspaced (hasPair_tail hcolon) hlast'
        (hasPair_tail hhash) (q := q.step c) (by omega) (by omega)
      refine ⟨g, hg, ?_, ?_, hread.trans hgread⟩
      · rw [hgwhole, hwhole, List.append_assoc]
        rfl
      · rw [hgspaced, List.getLast?_cons_cons]
    by_cases hspace : isSpace c = true
    · refine htake _ (Folding.isBroken_space hf hc) (Folding.whole_space hf hc) ?_ (plainFrom_space hspace hf)
      rw [hspace, Folding.isSpaced_space]
    · rw [Bool.not_eq_true] at hspace
      refine htake _ (Folding.isBroken_push f c) (Folding.whole_push f c) ?_ ?_
      · rw [hspace, Folding.isSpaced_push]
      · exact plainFrom_char hspace (fun _ => hindent) (fun h => absurd h (Nat.ne_of_gt hq))
          (endsPlain_eq_false hb hcolon hlast hhash)

theorem Folding.space_of_isBroken (hf : f.isBroken = true) : f.space ' ' = f := by
  obtain ⟨text, blanks, breaks⟩ := f
  cases breaks with
  | none => cases hf
  | some b => rfl

theorem plainFrom_spaces (hf : f.isBroken = true) (n : Nat) (p : Position) :
    plainFrom false indent f p (spaces n ++ rest) =
      plainFrom false indent f ((spaces n).foldl Position.step p) rest := by
  induction n generalizing p with
  | zero => rfl
  | succ n ih =>
    have hspace : spaces (n + 1) = ' ' :: spaces n := rfl
    rw [hspace, List.cons_append, plainFrom, if_pos (by rfl), if_neg (by simp), Folding.space_of_isBroken hf,
      ih, List.foldl_cons]

/-- Behind the line a plain scalar ends, where the next line starts if that is indented by less. -/
theorem plainFrom_break (hf : f.isBroken = true) (hp : p.column = 0) (hrest : StartsLine indent rest) :
    ∃ n ahead, rest = spaces n ++ ahead ∧ plainFrom false indent f p rest =
      some ⟨f.content, true, ⟨(spaces n).foldl Position.step p, ahead⟩⟩ := by
  rcases hrest with rfl | ⟨n, c, ahead, hn, hc, -, -, rfl⟩
  · exact ⟨0, [], rfl, by rw [plainFrom, hf]; rfl⟩
  · refine ⟨n, c :: ahead, rfl, ?_⟩
    have hcolumn : ((spaces n).foldl Position.step p).column < indent := by
      rw [(OnLine.spaces n).column_eq, hp, spaces, List.length_replicate]
      omega
    rw [plainFrom_spaces hf, plainFrom, if_neg (by simp [hc]),
      if_pos (by simp [Folding.isSpaced, hf, hcolumn]), hf]

theorem contains_openingIndicators {c : Char} : openingIndicators.contains c = isIndicator c := by
  rw [Bool.eq_iff_iff]
  simp only [openingIndicators, isIndicator, isFlowIndicator, List.contains_eq_mem, Bool.or_eq_true,
    decide_eq_true_eq, List.mem_cons, List.not_mem_nil, or_false]
  grind

/-- A reader starts a plain scalar where the printer sees no indicator. -/
theorem startsPlain_of_startsWithIndicator (hc : isSpace c = false)
    (h : startsWithIndicator (c :: cs) = false) : startsPlain false (c :: cs) = true := by
  rw [startsWithIndicator, contains_openingIndicators, Bool.or_eq_false_iff] at h
  obtain ⟨hindicator, hbefore⟩ := h
  have hspace (hmem : c ∈ ['-', '?', ':']) : startsSpace cs = false := by
    rw [List.contains_eq_mem, decide_eq_true hmem] at hbefore
    exact hbefore
  rw [startsPlain]
  split
  · rename_i hdash
    rw [hspace (by simp [hdash])]
    rfl
  · split
    · rename_i hkey
      rw [hspace (by simp at hkey; simp [hkey])]
      rfl
    · rw [hc, hindicator]
      rfl

/-- What `isBare` asks for, one by one. -/
theorem isBare_iff : isBare cs = true ↔ cs ≠ [] ∧ (∀ c ∈ cs, isWritable c = true) ∧
    startsWithIndicator cs = false ∧ hasIndicator cs = false ∧ cs.head?.any isSpace = false ∧
    cs.getLast?.any isSpace = false := by
  simp only [isBare, Bool.and_eq_true, Bool.not_eq_true', List.isEmpty_eq_false_iff, List.all_eq_true, and_assoc]

theorem startsPlain_of_isBare (h : isBare cs = true) : startsPlain false cs = true := by
  obtain ⟨hne, -, hstart, -, hhead, -⟩ := isBare_iff.1 h
  cases cs with
  | nil => exact absurd rfl hne
  | cons c cs => exact startsPlain_of_startsWithIndicator hhead hstart

theorem onLine_of_isBare (h : isBare cs = true) : OnLine cs :=
  fun c hc => isBreak_of_isWritable ((isBare_iff.1 h).2.1 c hc)

/-- What the printer leaves without quotes is read as it is, if the next line is not indented as far. -/
theorem plainAt_append (hbare : isBare cs = true) (hindent : indent ≤ q.column) (hq : 0 < q.column)
    (hrest : StartsLine indent rest) :
    ∃ n ahead, rest = spaces n ++ ahead ∧ plainAt false indent ⟨q, cs ++ '\n' :: rest⟩ =
      some ⟨cs, true, ⟨(spaces n).foldl Position.step ((cs.foldl Position.step q).step '\n'), ahead⟩⟩ := by
  obtain ⟨hne, -, -, hindicator, -, hend⟩ := isBare_iff.1 hbare
  rw [hasIndicator, Bool.or_eq_false_iff, Bool.or_eq_false_iff, decide_eq_false_iff_not] at hindicator
  obtain ⟨⟨hcolon, hlast⟩, hhash⟩ := hindicator
  obtain ⟨c, cs, rfl⟩ := List.exists_cons_of_ne_nil hne
  -- no space stands in front of the text
  have hhash' : hasPair isSpace (· = '#') ('a' :: c :: cs) = false := hhash
  obtain ⟨g, hg, hwhole, hspaced, hread⟩ := @plainFrom_bare 'a' (c :: cs) ('\n' :: rest) {} q indent
    (onLine_of_isBare hbare) rfl rfl hcolon hlast hhash' hindent hq
  rw [List.getLast?_cons_cons, hend] at hspaced
  have hcontent : g.content = c :: cs := (Folding.whole_eq_content hspaced).symm.trans hwhole
  have hbroken : (g.space '\n').isBroken = true := by
    obtain ⟨text, blanks, breaks⟩ := g
    cases breaks <;> rfl
  have hcolumn :=
    column_step_break (show isBreak '\n' = true from rfl) ((c :: cs).foldl Position.step q)
  obtain ⟨n, ahead, hahead, hbreak⟩ := plainFrom_break hbroken hcolumn hrest
  refine ⟨n, ahead, hahead, ?_⟩
  rw [plainAt, hread, plainFrom_space (by rfl) hg, hbreak, Folding.content_space, hcontent]

/-! ## Words -/

theorem of_isWordChar {c : Char} (h : isWordChar c = true) : isSpace c = false ∧ c ≠ ':' ∧ c ≠ '#' := by
  have hne : ∀ d : Char, isWordChar d = false → c ≠ d := by
    rintro d hd rfl
    rw [h] at hd
    cases hd
  refine ⟨?_, hne _ rfl, hne _ rfl⟩
  simp only [isSpace, isBlank, isBreak, Bool.or_eq_false_iff, decide_eq_false_iff_not]
  exact ⟨⟨hne _ rfl, hne _ rfl⟩, ⟨hne _ rfl, hne _ rfl⟩, hne _ rfl⟩

theorem startsTriple_of_ne {c d : Char} (h : c ≠ d) : startsTriple d (c :: cs) = false := by
  unfold startsTriple
  split
  · rename_i heq
    cases heq
    simp [h]
  · rfl

theorem startsMarker_of_ne {c : Char} (hdash : c ≠ '-') (hdot : c ≠ '.') :
    startsMarker (c :: cs) = false := by
  rw [startsMarker, startsTriple_of_ne hdash, startsTriple_of_ne hdot]
  rfl

/-- A word is passed as a whole. At the start of a line it starts with neither a dash nor a dot. -/
theorem plainFrom_word (hword : ∀ c ∈ cs, isWordChar c = true) (hf : f.isSpaced = false)
    (hstart : q.column = 0 → ∀ c, cs.head? = some c → c ≠ '-' ∧ c ≠ '.') :
    ∃ g : Folding, g.isSpaced = false ∧ g.content = f.content ++ cs ∧
      plainFrom false indent f q (cs ++ rest) = plainFrom false indent g (cs.foldl Position.step q) rest := by
  induction cs generalizing f q with
  | nil => exact ⟨f, hf, (List.append_nil _).symm, rfl⟩
  | cons c cs ih =>
    obtain ⟨hc, hcs⟩ := List.forall_mem_cons.1 hword
    obtain ⟨hspace, hcolon, hhash⟩ := of_isWordChar hc
    have hmarker : q.column = 0 → startsMarker (c :: (cs ++ rest)) = false := by
      intro hq
      obtain ⟨hdash, hdot⟩ := hstart hq c rfl
      exact startsMarker_of_ne hdash hdot
    have hbreak : isBreak c = false := by
      rw [isSpace, Bool.or_eq_false_iff] at hspace
      exact hspace.2
    have hcolumn := column_step hbreak q
    obtain ⟨g, hg, hcontent, hread⟩ := ih hcs (Folding.isSpaced_push f c) (q := q.step c) (by omega)
    refine ⟨g, hg, ?_, ?_⟩
    · rw [hcontent, Folding.content_push, Folding.whole_eq_content hf, List.append_assoc]
      rfl
    · rw [List.cons_append, plainFrom_char hspace (by simp [hf]) hmarker
        (by simp [endsPlain, hcolon, hf]), hread]
      rfl

end

/-! ## Between quotes -/

namespace Folding

variable {f : Folding} {c : Char}

/-- A character between quotes is next, and it is part of the text. -/
def add (f : Folding) (c : Char) : Folding := if isSpace c then f.space c else f.push c

theorem isBroken_add (hf : f.isBroken = false) (hc : isBreak c = false) : (f.add c).isBroken = false := by
  rw [add]
  split
  · exact isBroken_space hf hc
  · exact isBroken_push f c

theorem whole_add (hf : f.isBroken = false) (hc : isBreak c = false) : (f.add c).whole = f.whole ++ [c] := by
  rw [add]
  split
  · exact whole_space hf hc
  · exact whole_push f c

end Folding

section

variable {c : Char} {cs ds rest : List Char} {f : Folding} {p : Position}

theorem singleQuoted_quote : singleQuoted f p ('\'' :: '\'' :: rest) =
    singleQuoted (f.push '\'') ((p.step '\'').step '\'') rest := by
  rw [singleQuoted]

theorem singleQuoted_end (hrest : rest.head? ≠ some '\'') :
    singleQuoted f p ('\'' :: rest) = some (f.whole, ⟨p.step '\'', rest⟩) := by
  rw [singleQuoted]
  rintro cs rfl
  exact hrest rfl

theorem singleQuoted_char (hc : c ≠ '\'') (hp : 0 < p.column) :
    singleQuoted f p (c :: rest) = singleQuoted (f.add c) (p.step c) rest := by
  rw [singleQuoted, Folding.add]
  · split
    · rfl
    · rw [if_neg (by simp [Nat.ne_of_gt hp])]
  · exact fun _ h _ => hc h
  · exact hc

/-- Each character is read as itself, a quote from two of them. -/
theorem singleQuoted_flatMap (hline : OnLine cs) (hf : f.isBroken = false) (hp : 0 < p.column)
    (hrest : rest.head? ≠ some '\'') :
    singleQuoted f p (cs.flatMap singleEscape ++ '\'' :: rest) =
      some (f.whole ++ cs, ⟨((cs.flatMap singleEscape).foldl Position.step p).step '\'', rest⟩) := by
  induction cs generalizing f p with
  | nil => simpa using singleQuoted_end hrest
  | cons c cs ih =>
    obtain ⟨hc, hcs⟩ := OnLine.cons_iff.1 hline
    have hcolumn := column_step hc p
    rw [List.flatMap_cons]
    by_cases hquote : c = '\''
    · subst hquote
      have hcolumn' := column_step hc (p.step '\'')
      have hread : singleQuoted f p (singleEscape '\'' ++ cs.flatMap singleEscape ++ '\'' :: rest) =
          singleQuoted (f.push '\'') ((p.step '\'').step '\'') (cs.flatMap singleEscape ++ '\'' :: rest) :=
        singleQuoted_quote
      rw [hread, ih hcs (Folding.isBroken_push f _) (by omega), Folding.whole_push, List.append_assoc]
      rfl
    · rw [singleEscape, if_neg hquote, List.append_assoc, List.singleton_append, singleQuoted_char hquote hp,
        ih hcs (Folding.isBroken_add hf hc) (by omega), Folding.whole_add hf hc, List.append_assoc]
      rfl

/-! ## Digits -/

theorem digitsFrom?_append {radix n : Nat} : digitsFrom? radix n (cs ++ ds) =
    (digitsFrom? radix n cs).bind fun m => digitsFrom? radix m ds := by
  induction cs generalizing n with
  | nil => rfl
  | cons c cs ih =>
    rw [List.cons_append, digitsFrom?, digitsFrom?]
    cases hexDigit? c with
    | none => rfl
    | some d =>
      simp only
      split
      · exact ih
      · rfl

theorem digitsFrom?_replicate_zero {radix : Nat} (hradix : 0 < radix) (k : Nat) :
    digitsFrom? radix 0 (List.replicate k '0' ++ cs) = digitsFrom? radix 0 cs := by
  induction k with
  | zero => rfl
  | succ k ih =>
    have hzero : hexDigit? '0' = some 0 := rfl
    rw [List.replicate_succ, List.cons_append, digitsFrom?, hzero]
    simp only [hradix, if_true, Nat.mul_zero, Nat.zero_add]
    exact ih

/-- The digits of a number have its value, also if they are written otherwise. -/
theorem digitsFrom?_toDigits {radix : Nat} (hradix : 1 < radix) {write : Char → Char}
    (hwrite : ∀ d < radix, hexDigit? (write d.digitChar) = some d) (n : Nat) :
    digitsFrom? radix 0 ((Nat.toDigits radix n).map write) = some n := by
  induction n using Nat.strongRecOn with
  | ind n ih =>
    have hdigit : ∀ m d, d < radix → digitsFrom? radix m [write d.digitChar] = some (radix * m + d) := by
      intro m d hd
      simp [digitsFrom?, hwrite d hd, hd]
    by_cases hlt : n < radix
    · rw [Nat.toDigits_of_lt_base hlt, List.map_singleton, hdigit 0 n hlt, Nat.mul_zero, Nat.zero_add]
    · have hmod : n % radix < radix := Nat.mod_lt _ (by omega)
      rw [Nat.toDigits_of_base_le hradix (by omega), List.map_append, digitsFrom?_append,
        ih (n / radix) (Nat.div_lt_self (by omega) hradix), Option.bind_some, List.map_singleton,
        hdigit _ _ hmod, Nat.div_add_mod]

theorem digitsFrom?_hexDigits (digits n : Nat) : digitsFrom? 16 0 (hexDigits digits n) = some n := by
  have hupper : ∀ d < 16, hexDigit? d.digitChar.toUpper = some d := by decide
  rw [hexDigits, digitsFrom?_replicate_zero (by decide), digitsFrom?_toDigits (by decide) hupper]

theorem length_hexDigits {digits n : Nat} (hdigits : 0 < digits) (h : n < Nat.pow 16 digits) :
    (hexDigits digits n).length = digits := by
  have hle : (Nat.toDigits 16 n).length ≤ digits := (Nat.length_toDigits_le_iff (by decide) hdigits).2 h
  simp only [hexDigits, List.length_append, List.length_replicate, List.length_map]
  omega

/-! ## Between double quotes -/

theorem charOf?_toNat (c : Char) : charOf? c.toNat = some c := by
  have hvalid : c.toNat < 0xD800 ∨ 0xDFFF < c.toNat ∧ c.toNat < 0x110000 := c.valid
  rw [charOf?, if_pos (by simp; omega), Char.ofNat_toNat]

/-- The digits of an escape are read as the character that they stand for. -/
theorem doubleQuoted_code {v n : Nat} (hds : ds ≠ []) (hn : digitsFrom? 16 v ds = some n)
    (hc : charOf? n = some c) : doubleQuoted (.code ds.length v) f p (ds ++ rest) =
      doubleQuoted .none (f.push c) (ds.foldl Position.step p) rest := by
  induction ds generalizing v p with
  | nil => exact absurd rfl hds
  | cons d ds ih =>
    rw [digitsFrom?] at hn
    rw [List.cons_append, doubleQuoted]
    cases hdigit : hexDigit? d with
    | none =>
      rw [hdigit] at hn
      cases hn
    | some digit =>
      rw [hdigit] at hn
      simp only at hn ⊢
      split at hn
      · cases ds with
        | nil =>
          cases hn
          rw [if_pos (by simp), hc]
          rfl
        | cons d' ds =>
          rw [if_neg (by simp)]
          exact ih (List.cons_ne_nil _ _) hn
      · cases hn

theorem doubleQuoted_char (hquote : c ≠ '\x22') (hslash : c ≠ '\\') (hp : 0 < p.column) :
    doubleQuoted .none f p (c :: rest) = doubleQuoted .none (f.add c) (p.step c) rest := by
  simp only [doubleQuoted, if_neg hquote, if_neg hslash, Folding.add]
  split
  · rfl
  · rw [if_neg (by simp [Nat.ne_of_gt hp])]

theorem doubleQuoted_slash (hp : 0 < p.column) : doubleQuoted .none f p ('\\' :: rest) =
    doubleQuoted .begun f (p.step '\\') rest := by
  rw [doubleQuoted]
  simp [isSpace, isBlank, isBreak, Nat.ne_of_gt hp]

theorem doubleQuoted_letter {letter : Char} (h : (letter, c) ∈ letterEscapes) :
    doubleQuoted .begun f p (letter :: rest) = doubleQuoted .none (f.push c) (p.step letter) rest := by
  have htable : ∀ e ∈ letterEscapes, isBreak e.1 = false ∧ letterEscapes.lookup e.1 = some e.2 := by
    decide
  obtain ⟨hbreak, hlookup⟩ := htable _ h
  simp only [doubleQuoted, hbreak, hlookup]
  rfl

theorem doubleQuoted_codeLetter {letter : Char} {digits : Nat} (h : (letter, digits) ∈ codeEscapes) :
    doubleQuoted .begun f p (letter :: rest) = doubleQuoted (.code digits 0) f (p.step letter) rest := by
  have htable : ∀ e ∈ codeEscapes, isBreak e.1 = false ∧ letterEscapes.lookup e.1 = none ∧
      codeEscapes.lookup e.1 = some e.2 := by decide
  obtain ⟨hbreak, hnone, hlookup⟩ := htable _ h
  simp only [doubleQuoted, hbreak, hnone, hlookup]
  rfl

theorem doubleQuoted_hexDigits {letter : Char} {digits : Nat} (h : (letter, digits) ∈ codeEscapes)
    (hc : c.toNat < Nat.pow 16 digits) (hp : 0 < p.column) :
    doubleQuoted .none f p ('\\' :: letter :: hexDigits digits c.toNat ++ rest) =
      doubleQuoted .none (f.push c) (('\\' :: letter :: hexDigits digits c.toNat).foldl Position.step p)
        rest := by
  have hpos : 0 < digits := by
    have htable : ∀ e ∈ codeEscapes, 0 < e.2 := by decide
    exact htable _ h
  have hlength := length_hexDigits hpos hc
  have hne : hexDigits digits c.toNat ≠ [] := List.ne_nil_of_length_pos (by omega)
  have hcode : ∀ q, doubleQuoted (.code digits 0) f q (hexDigits digits c.toNat ++ rest) =
      doubleQuoted .none (f.push c) ((hexDigits digits c.toNat).foldl Position.step q) rest := by
    intro q
    rw [← doubleQuoted_code hne (digitsFrom?_hexDigits digits c.toNat) (charOf?_toNat c), hlength]
  exact (doubleQuoted_slash hp).trans ((doubleQuoted_codeLetter h).trans (hcode _))

/-- A character or its escape is read as the character. -/
theorem doubleQuoted_doubleEscape (hf : f.isBroken = false) (hc : isBreak c = false) (hp : 0 < p.column) :
    ∃ g : Folding, g.isBroken = false ∧ g.whole = f.whole ++ [c] ∧
      doubleQuoted .none f p (doubleEscape c ++ rest) =
        doubleQuoted .none g ((doubleEscape c).foldl Position.step p) rest := by
  have hescaped : (f.push c).isBroken = false ∧ (f.push c).whole = f.whole ++ [c] :=
    ⟨Folding.isBroken_push f c, Folding.whole_push f c⟩
  by_cases hbare : (isWritable c && c ≠ '\x22' && c ≠ '\\') = true
  · rw [doubleEscape, if_pos hbare]
    simp only [Bool.and_eq_true, decide_eq_true_eq, ne_eq] at hbare
    exact ⟨f.add c, Folding.isBroken_add hf hc, Folding.whole_add hf hc,
      doubleQuoted_char hbare.1.2 hbare.2 hp⟩
  · refine ⟨f.push c, hescaped.1, hescaped.2, ?_⟩
    rw [doubleEscape, if_neg hbare]
    cases hfind : letterEscapes.find? (·.2 = c) with
    | some e =>
      obtain ⟨letter, d⟩ := e
      have hmem := List.mem_of_find?_eq_some hfind
      obtain rfl : d = c := by simpa using List.find?_some hfind
      exact (doubleQuoted_slash hp).trans (doubleQuoted_letter hmem)
    | none =>
      simp only
      split
      · rename_i hlt
        exact doubleQuoted_hexDigits (by decide) hlt hp
      · split
        · rename_i hlt
          exact doubleQuoted_hexDigits (by decide) hlt hp
        · have hvalid : c.toNat < 0xD800 ∨ 0xDFFF < c.toNat ∧ c.toNat < 0x110000 := c.valid
          exact doubleQuoted_hexDigits (by decide) (show c.toNat < 0x100000000 by omega) hp

/-! ## Written text can be read -/

theorem isReadable_of_isPrintable (h : isPrintable c = true) : isReadable c = true := by
  simp only [isPrintable, isReadable, Bool.or_eq_true, Bool.and_eq_true, decide_eq_true_eq] at h ⊢
  rcases h with (((h | h) | h) | h) | h
  · simp [h]
  · simp [h]
  · simp [h]
  · simp [h.1]
  · simp [h]

theorem isWritable_of_ascii (hle : 0x20 ≤ c.toNat) (hge : c.toNat ≤ 0x7E) : isWritable c = true := by
  have hne : ∀ d : Char, (d.toNat < 0x20 ∨ 0x7E < d.toNat) → c ≠ d := by
    rintro d hd rfl
    omega
  have hfeed := hne '\n' (by decide)
  have hline := hne '\u2028' (by decide)
  have hparagraph := hne '\u2029' (by decide)
  simp [isWritable, isPrintable, isBreak, hle, hge, hfeed, hline, hparagraph]

theorem isWritable_of_between {a b : Char} (ha : a ≤ c) (hb : c ≤ b) (hle : 0x20 ≤ a.toNat)
    (hge : b.toNat ≤ 0x7E) : isWritable c = true :=
  isWritable_of_ascii (Nat.le_trans hle ha) (Nat.le_trans hb hge)

theorem isWritable_of_isDigit (h : c.isDigit = true) : isWritable c = true := by
  simp only [Char.isDigit, Bool.and_eq_true, decide_eq_true_eq] at h
  exact isWritable_of_between h.1 h.2 (by decide) (by decide)

theorem isWritable_of_hexDigit? {n : Nat} (h : hexDigit? c = some n) : isWritable c = true := by
  rw [hexDigit?] at h
  split at h
  · rename_i hdigit
    exact isWritable_of_isDigit hdigit
  · split at h
    · rename_i hlower
      simp only [Bool.and_eq_true, decide_eq_true_eq] at hlower
      exact isWritable_of_between hlower.1 hlower.2 (by decide) (by decide)
    · split at h
      · rename_i hupper
        simp only [Bool.and_eq_true, decide_eq_true_eq] at hupper
        exact isWritable_of_between hupper.1 hupper.2 (by decide) (by decide)
      · cases h

theorem isWritable_of_isWordChar (h : isWordChar c = true) : isWritable c = true := by
  have hkinds : (c.isUpper || c.isLower || c.isDigit || c = '-' || c = '_') = true := h
  simp only [Bool.or_eq_true, decide_eq_true_eq] at hkinds
  rcases hkinds with (((hupper | hlower) | hdigit) | rfl) | rfl
  · have hbounds : 'A' ≤ c ∧ c ≤ 'Z' := of_decide_eq_true hupper
    exact isWritable_of_between hbounds.1 hbounds.2 (by decide) (by decide)
  · have hbounds := (Bool.and_eq_true _ _).mp hlower
    have hlow : 'a' ≤ c := of_decide_eq_true hbounds.1
    exact isWritable_of_between hlow (of_decide_eq_true hbounds.2) (by decide) (by decide)
  · exact isWritable_of_isDigit hdigit
  · rfl
  · rfl

theorem hexDigit?_of_digitsFrom? {radix n m : Nat} (h : digitsFrom? radix n cs = some m) :
    ∀ c ∈ cs, ∃ d, hexDigit? c = some d := by
  induction cs generalizing n with
  | nil => exact nofun
  | cons c cs ih =>
    rw [digitsFrom?] at h
    cases hdigit : hexDigit? c with
    | none =>
      rw [hdigit] at h
      cases h
    | some d =>
      rw [hdigit] at h
      simp only at h
      split at h
      · exact List.forall_mem_cons.2 ⟨⟨d, hdigit⟩, ih h⟩
      · cases h

theorem isWritable_of_mem_doubleEscape {d : Char} (h : d ∈ doubleEscape c) : isWritable d = true := by
  have hcode : ∀ {letter digits}, (letter, digits) ∈ codeEscapes →
      d ∈ '\\' :: letter :: hexDigits digits c.toNat → isWritable d = true := by
    intro letter digits hletter hd
    have htable : ∀ e ∈ codeEscapes, isWritable e.1 = true := by decide
    rcases List.mem_cons.1 hd with rfl | hd
    · rfl
    rcases List.mem_cons.1 hd with rfl | hd
    · exact htable _ hletter
    · obtain ⟨n, hn⟩ := hexDigit?_of_digitsFrom? (digitsFrom?_hexDigits digits c.toNat) d hd
      exact isWritable_of_hexDigit? hn
  rw [doubleEscape] at h
  split at h
  · rename_i hbare
    simp only [Bool.and_eq_true] at hbare
    exact List.mem_singleton.1 h ▸ hbare.1.1
  · split at h
    · rename_i letter _ hfind
      have htable : ∀ e ∈ letterEscapes, ∀ e' ∈ letterEscapes.find? (·.2 = e.2),
          isWritable e'.1 = true := by
        decide
      have hletter : isWritable letter = true := by
        have hc := List.find?_some hfind
        simp only [decide_eq_true_eq] at hc
        rw [← hc] at hfind
        exact htable _ (List.mem_of_find?_eq_some hfind) _ hfind
      rcases List.mem_cons.1 h with rfl | h
      · rfl
      · exact List.mem_singleton.1 h ▸ hletter
    · split at h
      · exact hcode (by decide) h
      · split at h
        · exact hcode (by decide) h
        · exact hcode (by decide) h

/-- Each character is read as itself, also from its escape. -/
theorem doubleQuoted_flatMap (hline : OnLine cs) (hf : f.isBroken = false) (hp : 0 < p.column) :
    doubleQuoted .none f p (cs.flatMap doubleEscape ++ '\x22' :: rest) =
      some (f.whole ++ cs, ⟨((cs.flatMap doubleEscape).foldl Position.step p).step '\x22', rest⟩) := by
  induction cs generalizing f p with
  | nil => simp [doubleQuoted]
  | cons c cs ih =>
    obtain ⟨hc, hcs⟩ := OnLine.cons_iff.1 hline
    obtain ⟨g, hg, hwhole, hread⟩ :=
      @doubleQuoted_doubleEscape c (cs.flatMap doubleEscape ++ '\x22' :: rest) f p hf hc hp
    have hescape : OnLine (doubleEscape c) := fun d hd =>
      isBreak_of_isWritable (isWritable_of_mem_doubleEscape hd)
    have hcolumn := hescape.column_eq p
    rw [List.flatMap_cons, List.append_assoc, hread, ih hcs hg (by omega), hwhole, List.foldl_append,
      List.append_assoc]
    rfl

end

/-! ## Scalars on one line -/

/-- A scalar that is written on one line and read back from it. -/
inductive OneLine : Style → String → Prop
  | plain {text : String} (hbare : isBare text.toList = true) : OneLine .plain text
  | quoted {text : String} (hline : OnLine text.toList) : OneLine .quoted text

theorem OneLine.ofText {text : String} (hline : OnLine text.toList) : OneLine (styleOf text) text := by
  rw [styleOf]
  split
  · rename_i hplain
    rw [isPlainText, Bool.and_eq_true] at hplain
    exact .plain hplain.2
  · have hliteral : isLiteralText text.toList = false := by
      have hfeed : text.toList.contains '\n' = false := by
        rw [List.contains_eq_mem, decide_eq_false_iff_not]
        intro hmem
        have hbreak := hline _ hmem
        cases hbreak
      rw [isLiteralText, hfeed]
      rfl
    rw [hliteral, if_neg Bool.false_ne_true]
    exact .quoted hline

/-- Letters, digits, dashes and underscores, of which the first one is a letter or a digit. -/
structure IsWord (cs : List Char) : Prop where
  chars : ∀ c ∈ cs, isWordChar c = true
  start : ∃ c, cs.head? = some c ∧ c.isAlphanum = true

theorem startsWithIndicator_of_isAlphanum {c : Char} {cs : List Char} (h : c.isAlphanum = true) :
    startsWithIndicator (c :: cs) = false := by
  have hnone : ∀ ds : List Char, ds.any Char.isAlphanum = false → ds.contains c = false := by
    intro ds hds
    rw [List.contains_eq_mem, decide_eq_false_iff_not]
    exact fun hmem => List.any_eq_false.1 hds c hmem h
  rw [startsWithIndicator, hnone openingIndicators rfl, hnone _ rfl]
  rfl

theorem startsPlain_of_isAlphanum {c : Char} {cs : List Char} (h : c.isAlphanum = true) :
    startsPlain false (c :: cs) = true :=
  startsPlain_of_startsWithIndicator (of_isWordChar (by simp [isWordChar, h])).1
    (startsWithIndicator_of_isAlphanum h)

namespace IsWord

variable {cs : List Char}

theorem ne_marker (h : IsWord cs) {c : Char} (hc : cs.head? = some c) : c ≠ '-' ∧ c ≠ '.' := by
  obtain ⟨d, hd, halnum⟩ := h.start
  obtain rfl := Option.some.inj (hc.symm.trans hd)
  constructor
  · rintro rfl
    cases halnum
  · rintro rfl
    cases halnum

theorem isWritable (h : IsWord cs) : ∀ c ∈ cs, isWritable c = true :=
  fun c hc => isWritable_of_isWordChar (h.chars c hc)

/-- No character of a word is a space, a colon or a number sign. -/
theorem hasIndicator (h : IsWord cs) : hasIndicator cs = false := by
  have hcolon : hasPair (· = ':') isSpace cs = false := by
    rw [Bool.eq_false_iff]
    intro hpair
    obtain ⟨⟨c, hc, hcolon⟩, -⟩ := exists_of_hasPair hpair
    exact (of_isWordChar (h.chars c hc)).2.1 (of_decide_eq_true hcolon)
  have hhash : hasPair isSpace (· = '#') cs = false := by
    rw [Bool.eq_false_iff]
    intro hpair
    obtain ⟨-, c, hc, hhash⟩ := exists_of_hasPair hpair
    exact (of_isWordChar (h.chars c hc)).2.2 (of_decide_eq_true hhash)
  have hlast : cs.getLast? ≠ some ':' := fun hlast =>
    (of_isWordChar (h.chars _ (List.mem_of_getLast? hlast))).2.1 rfl
  rw [Yaml.hasIndicator, hcolon, hhash, decide_eq_false hlast]
  rfl

theorem isBare (h : IsWord cs) : isBare cs = true := by
  obtain ⟨c, hc, halnum⟩ := h.start
  have hspace : ∀ d ∈ cs, isSpace d = false := fun d hd => (of_isWordChar (h.chars d hd)).1
  refine isBare_iff.2 ⟨?_, h.isWritable, ?_, h.hasIndicator, ?_, ?_⟩
  · rintro rfl
    cases hc
  · obtain ⟨cs, rfl⟩ := List.head?_eq_some_iff.1 hc
    exact startsWithIndicator_of_isAlphanum halnum
  · exact (Option.any_eq_false _ _).2 fun d hd => hspace d (List.mem_of_head? hd)
  · exact (Option.any_eq_false _ _).2 fun d hd => hspace d (List.mem_of_getLast? hd)

end IsWord

theorem OneLine.ofWord {text : String} (h : IsWord text.toList) : OneLine .plain text :=
  .plain h.isBare

/-! ## How they are written -/

theorem indentLines_of_onLine {cs : List Char} (h : OnLine cs) (indent : Nat) :
    indentLines indent false cs = cs := by
  induction cs with
  | nil => rfl
  | cons c cs ih =>
    obtain ⟨hc, hcs⟩ := OnLine.cons_iff.1 h
    rw [indentLines, hc, if_neg Bool.false_ne_true, ih hcs]
    rfl

theorem onLine_flatMap_singleEscape {cs : List Char} (h : OnLine cs) :
    OnLine (cs.flatMap singleEscape) := by
  intro d hd
  obtain ⟨c, hc, hd⟩ := List.mem_flatMap.1 hd
  rw [singleEscape] at hd
  split at hd
  · have hquote : d = '\'' := by simpa using hd
    rw [hquote]
    rfl
  · exact List.mem_singleton.1 hd ▸ h c hc

/-- Text on one line is written between single quotes, if no character has to be escaped. -/
theorem quote_eq {cs : List Char} (h : OnLine cs) (indent : Nat) : quote indent cs =
    if isFaithful cs then '\'' :: (cs.flatMap singleEscape ++ ['\'']) else doubleQuote cs := by
  have hfeed : cs.contains '\n' = false := by
    rw [List.contains_eq_mem, decide_eq_false_iff_not]
    intro hmem
    have hbreak := h _ hmem
    cases hbreak
  have hlast : cs.getLast?.any isBreak = false := by
    rw [Option.any_eq_false]
    intro c hc
    rw [h c (List.mem_of_getLast? hc)]
  rw [quote, hfeed, Bool.not_false, Bool.and_true, singleQuote, hlast,
    indentLines_of_onLine (onLine_flatMap_singleEscape h)]
  simp

theorem isWritable_of_mem_scalarChars {style : Style} {text : String} (h : OneLine style text)
    {indent : Nat} :
    ∀ c ∈ scalarChars indent style text, isWritable c = true := by
  cases h with
  | plain hbare => exact (isBare_iff.1 hbare).2.1
  | quoted hline =>
    intro d hd
    rw [scalarChars, quote_eq hline] at hd
    split at hd
    · rename_i hfaithful
      rw [isFaithful, Bool.and_eq_true, Bool.and_eq_true, List.all_eq_true] at hfaithful
      rcases List.mem_cons.1 hd with rfl | hd
      · rfl
      rcases List.mem_append.1 hd with hd | hd
      · obtain ⟨c, hc, hd⟩ := List.mem_flatMap.1 hd
        rw [singleEscape] at hd
        split at hd
        · have hquote : d = '\'' := by simpa using hd
          rw [hquote]
          rfl
        · rw [List.mem_singleton.1 hd, isWritable, hfaithful.1.1 c hc, hline c hc]
          rfl
      · rw [List.mem_singleton.1 hd]
        rfl
    · rw [doubleQuote] at hd
      rcases List.mem_cons.1 hd with rfl | hd
      · rfl
      rcases List.mem_append.1 hd with hd | hd
      · obtain ⟨c, hc, hd⟩ := List.mem_flatMap.1 hd
        exact isWritable_of_mem_doubleEscape hd
      · rw [List.mem_singleton.1 hd]
        rfl

end PointsTo.Yaml
