import PointsTo.Proofs.YamlScalars
import PointsTo.Yaml.Lexer

/-!
# Tokens of a line

How a run goes on over the parts of a line: over a key with its colon (`Lexer.leads_key`), the dash of an item
(`leads_dash`), brackets with nothing between them (`leads_brackets`) and a scalar up to the next line
(`leads_scalar`). Each says which token follows which, and where the run then is (`Lexer.Leads`).

A scalar without quotes is read until the next line shows that it has ended, one between quotes only up to its
quote. Either way the next token is the same as from the start of the next line, so the lines of a text can be
taken one by one: a place is described by any other from which the next token is the same.
-/

namespace PointsTo.Yaml

namespace Lexer

variable {allowed : Bool} {p q : Position} {c : Char} {cs rest : List Char} {ts ts' : List Token}
  {columns columns' : List Nat} {s t u v : Lexer}

/-! ## Where a run leads -/

/-- Some tokens on, the run is where `t` is; each of them has used up text. -/
def Leads (s t : Lexer) : Prop :=
  ∃ k, k + t.cursor.ahead.length ≤ s.cursor.ahead.length ∧ ∀ n, s.run (n + k + 1) = t.run (n + 1)

theorem run_congr (h : s.settle = t.settle) (n : Nat) : s.run (n + 1) = t.run (n + 1) := by
  simp only [run, h]

namespace Leads

theorem of_settle (h : s.settle = t.settle) (hle : t.cursor.ahead.length ≤ s.cursor.ahead.length) :
    s.Leads t := ⟨0, by omega, fun n => run_congr h n⟩

theorem trans (h : s.Leads t) (h' : t.Leads u) : s.Leads u := by
  obtain ⟨k, hk, hrun⟩ := h
  obtain ⟨j, hj, hrun'⟩ := h'
  refine ⟨j + k, by omega, fun n => ?_⟩
  rw [← Nat.add_assoc, hrun, hrun']

/-- One token on. What follows it may be described from an earlier place, if the next token is the same. -/
theorem token (hsettle : s.settle = some t) (hahead : t.cursor.ahead = c :: cs)
    (hnext : t.next c cs = some u) (hsame : u.settle = v.settle)
    (hlt : v.cursor.ahead.length < s.cursor.ahead.length) : s.Leads v := by
  refine ⟨1, by omega, fun n => ?_⟩
  rw [← run_congr hsame, run, hsettle]
  simp only [hahead, hnext]

end Leads

/-- A place outside of brackets where no key has started. -/
def between (allowed : Bool) (p : Position) (cs : List Char) (ts : List Token) (columns : List Nat) :
    Lexer where
  cursor := ⟨p, cs⟩
  tokens := ts
  count := ts.length
  columns
  keyAllowed := allowed

/-! ## Between tokens -/

theorem idle_spaces (flow allowed : Bool) (p : Position) (n : Nat) (cs : List Char) :
    idle flow allowed false p (spaces n ++ cs) =
      idle flow allowed false ((spaces n).foldl Position.step p) cs := by
  induction n generalizing p with
  | zero => rfl
  | succ n ih => exact ih (p.step ' ')

theorem idle_char (flow allowed : Bool) (p : Position) (hc : isSpace c = false) (hhash : c ≠ '#')
    (hmark : c ≠ byteOrderMark) : idle flow allowed false p (c :: cs) = (allowed, ⟨p, c :: cs⟩) := by
  simp only [isSpace, isBlank, Bool.or_eq_false_iff, decide_eq_false_iff_not] at hc
  simp [idle, hc, hhash, hmark]

theorem line_le_idle (flow allowed comment : Bool) (p : Position) (cs : List Char) :
    p.line ≤ (idle flow allowed comment p cs).2.position.line := by
  induction cs generalizing allowed comment p with
  | nil => exact Nat.le_refl _
  | cons c cs ih =>
    have hstep : p.line ≤ (p.step c).line := by
      unfold Position.step
      split
      · exact Nat.le_succ _
      · exact Nat.le_refl _
    rw [idle]
    split
    · exact Nat.le_trans hstep (ih ..)
    · split
      · exact Nat.le_trans hstep (ih ..)
      · split
        · exact Nat.le_trans hstep (ih ..)
        · split
          · exact Nat.le_trans hstep (ih ..)
          · exact Nat.le_refl _

theorem dropStale_between :
    (between allowed p cs ts columns).dropStale = some (between allowed p cs ts columns) := rfl

theorem skipIdle_between : (between allowed p cs ts columns).skipIdle =
    between (idle false allowed false p cs).1 (idle false allowed false p cs).2.position
      (idle false allowed false p cs).2.ahead ts columns := rfl

theorem closeBlocks_eq_self (hflow : s.inFlow = false) {close : Nat → Bool}
    (hclose : ∀ d ∈ s.columns.head?, close d = false) : s.closeBlocks close = s := by
  have htake : s.columns.takeWhile close = [] ∧ s.columns.dropWhile close = s.columns := by
    cases h : s.columns with
    | nil => exact ⟨rfl, rfl⟩
    | cons d ds =>
      have hd : close d = false := hclose d (by rw [h]; rfl)
      exact ⟨List.takeWhile_cons_of_neg (by simp [hd]), List.dropWhile_cons_of_neg (by simp [hd])⟩
  rw [closeBlocks, hflow, if_neg Bool.false_ne_true, htake.1, htake.2]
  rfl

/-- The next token is behind the spaces, and no list or map ends before it. -/
theorem settle_between {n : Nat} (hc : isSpace c = false) (hhash : c ≠ '#') (hmark : c ≠ byteOrderMark)
    (hcolumns : ∀ d ∈ columns.head?, d ≤ p.column + n) :
    (between allowed p (spaces n ++ c :: cs) ts columns).settle =
      some (between allowed ((spaces n).foldl Position.step p) (c :: cs) ts columns) := by
  have hcolumn : ((spaces n).foldl Position.step p).column = p.column + n := by
    rw [(OnLine.spaces n).column_eq, spaces, List.length_replicate]
  rw [settle, skipIdle_between, idle_spaces, idle_char _ _ _ hc hhash hmark, dropStale_between,
    Option.map_some, closeBlocks_eq_self rfl]
  intro d hd
  have hle := hcolumns d hd
  have hself : (between allowed ((spaces n).foldl Position.step p) (c :: cs) ts columns).column =
      ((spaces n).foldl Position.step p).column := rfl
  rw [hself, hcolumn, decide_eq_false_iff_not]
  omega

/-- The next token may be looked for from the start of the next line. -/
theorem settle_break : (between allowed p ('\n' :: cs) ts columns).settle =
    (between true (p.step '\n') cs ts columns).settle := by
  have hidle : idle false allowed false p ('\n' :: cs) = idle false true false (p.step '\n') cs := by
    rw [idle, if_pos (by rfl), Bool.not_false, Bool.or_true]
  rw [settle, settle, skipIdle_between, skipIdle_between, hidle]

/-- The next token may be looked for from behind the spaces. -/
theorem settle_spaces {n : Nat} : (between allowed p (spaces n ++ cs) ts columns).settle =
    (between allowed ((spaces n).foldl Position.step p) cs ts columns).settle := by
  rw [settle, settle, skipIdle_between, skipIdle_between, idle_spaces]

theorem dropStale_keyStart {k : KeyStart} (hs : s.outerKeyStarts = []) (hrequired : k.required = false)
    (hstale : k.isStale s.cursor.position = true) :
    { s with keyStart := some k }.dropStale = { s with keyStart := none }.dropStale := by
  obtain ⟨cursor, tokens, count, columns, keyStart, outer, allowed⟩ := s
  cases hs
  simp only at hstale
  simp [dropStale, isOverdue, hrequired, hstale]

/-- What started on an earlier line is no key. -/
theorem settle_keyStart {k : KeyStart} (hs : s.outerKeyStarts = []) (hrequired : k.required = false)
    (hline : k.position.line < s.skipIdle.cursor.position.line) :
    { s with keyStart := some k }.settle = { s with keyStart := none }.settle := by
  have hstale : k.isStale s.skipIdle.cursor.position = true := by
    rw [KeyStart.isStale, decide_eq_true hline, Bool.true_or]
  have hdrop := @dropStale_keyStart s.skipIdle k hs hrequired hstale
  exact congrArg (Option.map fun s => s.closeBlocks (s.column < ·)) hdrop

theorem closeBlocks_between (close : Nat → Bool) : (between allowed p cs ts columns).closeBlocks close =
    between allowed p cs (List.replicate (columns.takeWhile close).length .blockEnd ++ ts)
      (columns.dropWhile close) := by
  simp [closeBlocks, between, inFlow, Nat.add_comm]

/-- A list or map ends before a line that is not indented as far. -/
theorem settle_close {d : Nat} (hd : 0 < d) (hp : p.column = 0) (hcs : StartsLine d cs) :
    (between true p cs ts (d :: columns)).settle = (between true p cs (.blockEnd :: ts) columns).settle := by
  have hcolumn : (idle false true false p cs).2.position.column < d := by
    rcases hcs with rfl | ⟨n, c, rest, hn, hc, hhash, hmark, rfl⟩
    · exact hp ▸ hd
    · rw [idle_spaces, idle_char _ _ _ hc hhash hmark, (OnLine.spaces n).column_eq, hp, spaces,
        List.length_replicate]
      omega
  have hclose : ∀ {a : Bool} {q : Position} {ahead : List Char}, q.column < d →
      (between a q ahead ts (d :: columns)).closeBlocks (q.column < ·) =
        (between a q ahead (.blockEnd :: ts) columns).closeBlocks (q.column < ·) := by
    intro a q ahead hq
    have htake : (d :: columns).takeWhile (fun x => decide (q.column < x)) =
        d :: columns.takeWhile fun x => decide (q.column < x) :=
      List.takeWhile_cons_of_pos (decide_eq_true hq)
    have hdrop : (d :: columns).dropWhile (fun x => decide (q.column < x)) =
        columns.dropWhile fun x => decide (q.column < x) :=
      List.dropWhile_cons_of_pos (decide_eq_true hq)
    rw [closeBlocks_between, closeBlocks_between, htake, hdrop, List.length_cons, List.replicate_succ',
      List.append_assoc]
    rfl
  rw [settle, settle, skipIdle_between, skipIdle_between, dropStale_between, dropStale_between]
  exact congrArg some (hclose hcolumn)

/-! ## Keys -/

/-- A map is open in a column, or it opens there. -/
inductive Opens (column : Nat) : List Token → List Nat → List Token → List Nat → Prop
  | old {ts : List Token} {columns : List Nat} : Opens column ts (column :: columns) ts (column :: columns)
  | new {ts : List Token} {columns : List Nat} (h : ∀ d ∈ columns.head?, d < column) :
    Opens column ts columns (.blockMapStart :: ts) (column :: columns)

theorem Opens.le {column : Nat} (h : Opens column ts columns ts' columns') :
    ∀ d ∈ columns.head?, d ≤ column := by
  cases h with
  | old =>
    intro d hd
    exact Nat.le_of_eq (Option.some.inj hd).symm
  | new h => exact fun d hd => Nat.le_of_lt (h d hd)

theorem Opens.exists_eq {column : Nat} (h : Opens column ts columns ts' columns') :
    ∃ ds, columns' = column :: ds := by
  cases h with
  | old => exact ⟨_, rfl⟩
  | new => exact ⟨_, rfl⟩

/-- A plain scalar is next. -/
theorem next_plain (hflow : s.inFlow = false) (hstart : startsPlain false (c :: cs) = true)
    (hmark : s.column = 0 → c ≠ '%' ∧ c ≠ '-' ∧ c ≠ '.') : s.next c cs = s.plain := by
  have hpercent : ¬(s.column = 0 ∧ c = '%') := fun h => (hmark h.1).1 h.2
  have htriple : ∀ d, (d = '-' ∨ d = '.') → ¬(s.column = 0 ∧ startsTriple d (c :: cs) = true) := by
    rintro d (rfl | rfl) ⟨hcolumn, h⟩
    · rw [startsTriple_of_ne (hmark hcolumn).2.1] at h
      cases h
    · rw [startsTriple_of_ne (hmark hcolumn).2.2] at h
      cases h
  have hspace : ∀ d, (d = '-' ∨ d = '?' ∨ d = ':') → ¬(c = d ∧ startsSpace cs = true) := by
    rintro d (rfl | rfl | rfl) ⟨rfl, h⟩ <;> simp [startsPlain, h] at hstart
  have hne : ∀ d, isIndicator d = true → c ≠ d := by
    rintro d hd rfl
    have hdash : c ≠ '-' := by rintro rfl; cases hd
    have hquestion : c ≠ '?' := by rintro rfl; cases hd
    have hcolon : c ≠ ':' := by rintro rfl; cases hd
    simp [startsPlain, hdash, hquestion, hcolon, hd] at hstart
  simp only [next, hflow, Bool.and_eq_true, Bool.false_or, Bool.not_false, and_true, decide_eq_true_eq]
  rw [if_neg hpercent, if_neg (htriple _ (by simp)), if_neg (htriple _ (by simp)), if_neg (hne _ rfl),
    if_neg (hne _ rfl), if_neg (hne _ rfl), if_neg (hne _ rfl), if_neg (hne _ rfl),
    if_neg (hspace _ (by simp)), if_neg (hspace _ (by simp)), if_neg (hspace _ (by simp)),
    if_neg (hne _ rfl), if_neg (hne _ rfl), if_neg (hne _ rfl), if_neg (hne _ rfl), if_neg (hne _ rfl),
    if_neg (hne _ rfl), if_neg (hne _ rfl), if_pos hstart]

/-- The place behind a word that may be a key. -/
def behindWord (p q : Position) (required : Bool) (cs : List Char) (word : String) (ts : List Token)
    (columns : List Nat) : Lexer :=
  { between false q cs (.scalar .plain word :: ts) columns with
    keyStart := some ⟨p, ts.length, required⟩ }

theorem plain_word {word : String} (hword : IsWord word.toList) (hrest : startsSpace rest = true) :
    (between true p (word.toList ++ ':' :: rest) ts columns).plain =
      some (behindWord p (word.toList.foldl Position.step p) (columns.head? = some p.column) (':' :: rest)
        word ts columns) := by
  have hsave : (between true p (word.toList ++ ':' :: rest) ts columns).saveKey =
      some { between true p (word.toList ++ ':' :: rest) ts columns with
        keyStart := some ⟨p, ts.length, decide (columns.head? = some p.column)⟩ } := rfl
  have hplain : ∀ indent, plainAt false indent ⟨p, word.toList ++ ':' :: rest⟩ =
      some ⟨word.toList, false, ⟨word.toList.foldl Position.step p, ':' :: rest⟩⟩ := by
    intro indent
    obtain ⟨g, hg, hcontent, hread⟩ : ∃ g : Folding, g.isSpaced = false ∧
        g.content = ({} : Folding).content ++ word.toList ∧
          plainFrom false indent {} p (word.toList ++ ':' :: rest) =
            plainFrom false indent g (word.toList.foldl Position.step p) (':' :: rest) :=
      plainFrom_word hword.chars rfl fun _ _ hc => hword.ne_marker hc
    have hbroken : g.isBroken = false := by
      rw [Folding.isSpaced, Bool.or_eq_false_iff] at hg
      exact hg.1
    have hmarker : startsMarker (':' :: rest) = false := startsMarker_of_ne (by decide) (by decide)
    rw [plainAt, hread, plainFrom, if_neg (by simp [isSpace, isBlank, isBreak]),
      if_neg (by simp [hg, hmarker]),
      if_neg (by simp [isStrayColon]), if_pos (by simp [endsPlain, hrest]), hcontent, hbroken]
    rfl
  rw [plain, hsave, Option.bind_some]
  exact (congrArg _ (hplain _)).trans (by rw [Option.map_some, String.ofList_toList]; rfl)

theorem settle_behindWord {required : Bool} {word : String} (hline : q.line = p.line)
    (hoffset : q.offset ≤ p.offset + 1024) (hcolumns : ∀ d ∈ columns.head?, d ≤ q.column) :
    (behindWord p q required (':' :: rest) word ts columns).settle =
      some (behindWord p q required (':' :: rest) word ts columns) := by
  have hidle : (behindWord p q required (':' :: rest) word ts columns).skipIdle =
      behindWord p q required (':' :: rest) word ts columns := by
    have h : idle false false false q (':' :: rest) = (false, ⟨q, ':' :: rest⟩) :=
      idle_char _ _ _ rfl (by decide) (by decide)
    exact congrArg (fun x : Bool × Cursor =>
      { behindWord p q required (':' :: rest) word ts columns with keyAllowed := x.1, cursor := x.2 }) h
  have hstale : KeyStart.isStale ⟨p, ts.length, required⟩ q = false := by
    simp [KeyStart.isStale, hline, hoffset]
  have hdrop : (behindWord p q required (':' :: rest) word ts columns).dropStale =
      some (behindWord p q required (':' :: rest) word ts columns) := by
    simp [dropStale, behindWord, between, isOverdue, hstale]
  rw [settle, hidle, hdrop, Option.map_some, closeBlocks_eq_self rfl]
  intro d hd
  exact decide_eq_false (Nat.not_lt_of_le (hcolumns d hd))

theorem value_behindWord {required : Bool} {word : String} (h : Opens p.column ts columns ts' columns') :
    (behindWord p q required (':' :: rest) word ts columns).value =
      some (between false (q.step ':') rest (.value :: .scalar .plain word :: .key :: ts') columns') := by
  cases h with
  | old => simp [value, behindWord, between, insert, openBlock, inFlow, emit, skip, Cursor.skip]
  | new h =>
    have hopen : columns.head?.any (p.column ≤ ·) = false := by
      rw [Option.any_eq_false]
      intro d hd
      have hlt := h d hd
      simpa using hlt
    have hindex : ts.length + 1 + 1 - ts.length = 2 := by omega
    simp [value, behindWord, between, insert, openBlock, inFlow, emit, skip, Cursor.skip, hopen, hindex]

theorem next_value (hrest : startsSpace rest = true) : s.next ':' rest = s.value := by
  simp [next, startsTriple_of_ne, hrest]

/-- A key and its colon. -/
theorem leads_key {column : Nat} {word : String} (hword : IsWord word.toList)
    (hlength : word.toList.length ≤ 256) (hrest : startsSpace rest = true) (hp : p.column = 0)
    (hopens : Opens column ts columns ts' columns') :
    ∃ q, column < q.column ∧
      (between true p (spaces column ++ (word.toList ++ ':' :: rest)) ts columns).Leads
        (between false q rest (.value :: .scalar .plain word :: .key :: ts') columns') := by
  obtain ⟨c, hc, halnum⟩ := hword.start
  obtain ⟨cs, hcs⟩ := List.head?_eq_some_iff.1 hc
  have hline : OnLine word.toList := fun c hc => isBreak_of_isWritable (hword.isWritable c hc)
  obtain ⟨hspace, -, hhash⟩ := of_isWordChar (hword.chars c (hcs ▸ List.mem_cons_self))
  have hmark : c ≠ byteOrderMark := by
    rintro rfl
    cases halnum
  have hpercent : c ≠ '%' := by
    rintro rfl
    cases halnum
  have hspaces : ((spaces column).foldl Position.step p).column = column := by
    rw [(OnLine.spaces column).column_eq, hp, spaces, List.length_replicate, Nat.zero_add]
  generalize hstart : (spaces column).foldl Position.step p = start at hspaces
  have hsettle := @settle_between true p c (cs ++ ':' :: rest) ts columns column hspace hhash hmark
    fun d hd => hp ▸ (Nat.zero_add column).symm ▸ hopens.le d hd
  rw [← List.cons_append, ← hcs, hstart] at hsettle
  have hplain := @plain_word start rest ts columns word hword hrest
  have hcolumn := hline.column_eq start
  have hsameLine := hline.line_eq start
  have hoffset := offset_foldl_step_le word.toList start
  generalize word.toList.foldl Position.step start = stop at hplain hcolumn hsameLine hoffset
  have hnext : (between true start (word.toList ++ ':' :: rest) ts columns).next c (cs ++ ':' :: rest) =
      some (behindWord start stop (columns.head? = some start.column) (':' :: rest) word ts columns) := by
    rw [← hplain]
    exact next_plain rfl (startsPlain_of_isAlphanum halnum) fun _ => ⟨hpercent, hword.ne_marker hc⟩
  have hbehind := @settle_behindWord start stop rest ts columns (columns.head? = some start.column) word
    hsameLine (by omega) fun d hd => by
      have hle := hopens.le d hd
      omega
  have hvalue := (next_value hrest).trans (@value_behindWord start stop rest ts ts' columns columns'
    (columns.head? = some start.column) word (hspaces ▸ hopens))
  refine ⟨stop.step ':', ?_, Leads.trans ?_ (.token hbehind rfl hvalue rfl ?_)⟩
  · rw [column_step rfl]
    omega
  · refine .token hsettle (by rw [hcs]; rfl) hnext rfl ?_
    simp [behindWord, between, hcs]
    omega
  · simp [behindWord, between]

/-! ## Scalars -/

section

variable {column indent : Nat} {style : Style} {text : String}

/-- A key may start where a scalar does, if one may start there at all. -/
def mayStart (allowed : Bool) (p : Position) (ts : List Token) : Option KeyStart :=
  if allowed then some ⟨p, ts.length, false⟩ else none

theorem saveKey_between (hp : column < p.column) :
    (between allowed p cs ts (column :: columns)).saveKey =
      some { between allowed p cs ts (column :: columns) with keyStart := mayStart allowed p ts } := by
  cases allowed with
  | false => rfl
  | true =>
    have hrequired : decide ((column :: columns).head? = some p.column) = false :=
      decide_eq_false fun h => Nat.ne_of_lt hp (Option.some.inj h)
    have hsave : (between true p cs ts (column :: columns)).saveKey =
        some { between true p cs ts (column :: columns) with
          keyStart := some ⟨p, ts.length, decide ((column :: columns).head? = some p.column)⟩ } := rfl
    rw [hsave, hrequired]
    rfl

theorem settle_mayStart {allowed' : Bool}
    (hline : p.line < (idle false allowed' false q cs).2.position.line) :
    { between allowed' q cs ts' columns with keyStart := mayStart allowed p ts }.settle =
      (between allowed' q cs ts' columns).settle := by
  cases allowed with
  | false => rfl
  | true => exact settle_keyStart rfl rfl hline

theorem startsPlain_append_break (flow : Bool) (c : Char) (cs rest : List Char) :
    startsPlain flow (c :: (cs ++ '\n' :: rest)) = startsPlain flow (c :: cs) := by
  rw [startsPlain, startsPlain, startsSpace_append_break]

theorem next_plainScalar (hbare : isBare (c :: cs) = true) (hp : column < p.column)
    (hrest : StartsLine (column + 1) rest) :
    ∃ t, (between allowed p (c :: (cs ++ '\n' :: rest)) ts (column :: columns)).next c (cs ++ '\n' :: rest) =
        some t ∧
      t.settle = (between true (((c :: cs).foldl Position.step p).step '\n') rest
        (.scalar .plain (String.ofList (c :: cs)) :: ts) (column :: columns)).settle := by
  obtain ⟨n, ahead, hahead, hread⟩ :=
    plainAt_append hbare hp (Nat.lt_of_le_of_lt (Nat.zero_le _) hp) hrest
  generalize hend : ((c :: cs).foldl Position.step p).step '\n' = next at hread ⊢
  have hnext : next.line = p.line + 1 := by
    rw [← hend, line_step_break rfl, (onLine_of_isBare hbare).line_eq]
  have hstart : startsPlain false (c :: (cs ++ '\n' :: rest)) = true := by
    rw [startsPlain_append_break, startsPlain_of_isBare hbare]
  have hplain : (between allowed p (c :: (cs ++ '\n' :: rest)) ts (column :: columns)).plain =
      some { between true ((spaces n).foldl Position.step next) ahead
        (.scalar .plain (String.ofList (c :: cs)) :: ts) (column :: columns) with
          keyStart := mayStart allowed p ts } := by
    rw [plain, saveKey_between hp, Option.bind_some]
    exact congrArg (Option.map _) hread
  refine ⟨_, (next_plain rfl hstart fun h => ?_).trans hplain, ?_⟩
  · exact absurd h (Nat.ne_of_gt (Nat.lt_of_le_of_lt (Nat.zero_le _) hp))
  · rw [settle_mayStart, hahead, settle_spaces]
    have hspaces := (OnLine.spaces n).line_eq next
    have hidle := line_le_idle false true false ((spaces n).foldl Position.step next) ahead
    omega

/-- Behind a scalar between quotes the next token may be looked for on the next line. -/
theorem settle_behindQuotes (hq : q.line = p.line) :
    { between false q ('\n' :: rest) ts' columns with keyStart := mayStart allowed p ts }.settle =
      (between true (q.step '\n') rest ts' columns).settle := by
  rw [settle_mayStart, settle_break]
  have hidle : idle false false false q ('\n' :: rest) = idle false true false (q.step '\n') rest := rfl
  have hle := line_le_idle false true false (q.step '\n') rest
  rw [line_step_break rfl] at hle
  rw [hidle]
  omega

theorem quoted_eq (hp : column < p.column)
    {read : Position → List Char → Option (List Char × Cursor)} {word : List Char}
    (hread : read (p.step c) cs = some (word, ⟨q, rest⟩)) :
    (between allowed p (c :: cs) ts (column :: columns)).quoted read =
      some { between false q rest (.scalar .quoted (String.ofList word) :: ts) (column :: columns) with
        keyStart := mayStart allowed p ts } := by
  rw [quoted, saveKey_between hp, Option.bind_some]
  exact congrArg (Option.map _) hread

theorem next_singleQuote (hs : 0 < s.column) : s.next '\'' cs = s.quoted (singleQuoted {}) := by
  simp [next, Nat.ne_of_gt hs]

theorem next_doubleQuote (hs : 0 < s.column) : s.next '\x22' cs = s.quoted (doubleQuoted .none {}) := by
  simp [next, Nat.ne_of_gt hs]

/-- The token of a scalar on one line. -/
theorem next_scalar (h : OneLine style text) (hchars : scalarChars indent style text = c :: cs)
    (hp : column < p.column) (hrest : StartsLine (column + 1) rest) :
    ∃ t, (between allowed p (c :: (cs ++ '\n' :: rest)) ts (column :: columns)).next c (cs ++ '\n' :: rest) =
        some t ∧
      t.settle = (between true (((c :: cs).foldl Position.step p).step '\n') rest
        (.scalar style text :: ts) (column :: columns)).settle := by
  cases h with
  | plain hbare =>
    have htext : text = String.ofList (c :: cs) := by
      rw [← hchars, scalarChars, String.ofList_toList]
    have hlist : text.toList = c :: cs := hchars
    rw [htext]
    rw [hlist] at hbare
    exact next_plainScalar hbare hp hrest
  | quoted hline =>
    have hwritten : OnLine (c :: cs) := fun d hd =>
      isBreak_of_isWritable (isWritable_of_mem_scalarChars (.quoted hline) d (hchars.symm ▸ hd))
    have hquoted : ∀ {read : Position → List Char → Option (List Char × Cursor)},
        read (p.step c) (cs ++ '\n' :: rest) =
            some (text.toList, ⟨(c :: cs).foldl Position.step p, '\n' :: rest⟩) →
          ∃ t, (between allowed p (c :: (cs ++ '\n' :: rest)) ts (column :: columns)).quoted read = some t ∧
            t.settle = (between true (((c :: cs).foldl Position.step p).step '\n') rest
              (.scalar .quoted text :: ts) (column :: columns)).settle := by
      intro read hread
      refine ⟨_, quoted_eq hp hread, ?_⟩
      rw [String.ofList_toList]
      exact settle_behindQuotes (hwritten.line_eq p)
    have hcolumn : 0 < p.column := Nat.lt_of_le_of_lt (Nat.zero_le _) hp
    have hinside : ∀ {d}, isBreak d = false → 0 < (p.step d).column := by
      intro d hd
      rw [column_step hd]
      omega
    rw [scalarChars, quote_eq hline] at hchars
    split at hchars
    · obtain ⟨rfl, rfl⟩ := List.cons.inj hchars
      rw [next_singleQuote (show 0 < (between allowed p _ ts (column :: columns)).column from hcolumn)]
      apply hquoted
      rw [List.append_assoc, List.singleton_append,
        singleQuoted_flatMap hline rfl (hinside rfl) (by simp), List.foldl_cons, List.foldl_append]
      rfl
    · obtain ⟨rfl, rfl⟩ := List.cons.inj hchars
      rw [next_doubleQuote (show 0 < (between allowed p _ ts (column :: columns)).column from hcolumn)]
      apply hquoted
      rw [List.append_assoc, List.singleton_append,
        doubleQuoted_flatMap hline rfl (hinside rfl), List.foldl_cons, List.foldl_append]
      rfl

theorem of_startsPlain (h : startsPlain false (c :: cs) = true) : isSpace c = false ∧ c ≠ '#' := by
  rw [startsPlain] at h
  split at h
  · rename_i hc
    exact hc ▸ ⟨rfl, by decide⟩
  · split at h
    · rename_i hc
      simp only [Bool.or_eq_true, decide_eq_true_eq] at hc
      rcases hc with rfl | rfl
      · exact ⟨rfl, by decide⟩
      · exact ⟨rfl, by decide⟩
    · rw [Bool.and_eq_true, Bool.not_eq_true', Bool.not_eq_true'] at h
      refine ⟨h.1, ?_⟩
      rintro rfl
      cases h.2

/-- What a scalar on one line starts with. -/
theorem exists_scalarChars (h : OneLine style text) (indent : Nat) : ∃ c cs,
    scalarChars indent style text = c :: cs ∧ isSpace c = false ∧ c ≠ '#' ∧ c ≠ byteOrderMark := by
  cases h with
  | plain hbare =>
    cases htext : text.toList with
    | nil =>
      rw [htext] at hbare
      cases hbare
    | cons c cs =>
      rw [htext] at hbare
      obtain ⟨hspace, hhash⟩ := of_startsPlain (startsPlain_of_isBare hbare)
      refine ⟨c, cs, htext, hspace, hhash, ?_⟩
      rintro rfl
      cases (isBare_iff.1 hbare).2.1 _ List.mem_cons_self
  | quoted hline =>
    rw [scalarChars, quote_eq hline]
    split
    · exact ⟨_, _, rfl, rfl, by decide, by decide⟩
    · exact ⟨_, _, rfl, rfl, by decide, by decide⟩

/-- A scalar behind a colon or a dash. -/
theorem leads_scalar (h : OneLine style text) (hp : column ≤ p.column)
    (hrest : StartsLine (column + 1) rest) :
    ∃ q, q.column = 0 ∧
      (between allowed p (' ' :: (scalarChars indent style text ++ '\n' :: rest)) ts
        (column :: columns)).Leads
        (between true q rest (.scalar style text :: ts) (column :: columns)) := by
  obtain ⟨c, cs, hchars, hspace, hhash, hmark⟩ := exists_scalarChars h indent
  have hsettle := @settle_between allowed p c (cs ++ '\n' :: rest) ts (column :: columns) 1 hspace hhash hmark
    fun d hd => by
      have hd := Option.some.inj hd
      omega
  have hcolumn : ((spaces 1).foldl Position.step p).column = p.column + 1 := (OnLine.spaces 1).column_eq p
  obtain ⟨t, hnext, hsame⟩ := @next_scalar allowed _ c cs rest ts columns column indent style text h hchars
    (show column < ((spaces 1).foldl Position.step p).column by omega) hrest
  have hlead := Leads.token hsettle rfl hnext hsame (by simp [between]; omega)
  rw [hchars]
  exact ⟨_, column_step_break (show isBreak '\n' = true from rfl) _, hlead⟩

/-! ## Lists -/

/-- A place between the brackets of a list, in front of its first item. -/
def inBrackets (p : Position) (cs : List Char) (ts : List Token) (columns : List Nat) : Lexer :=
  { between true p cs (.listStart :: ts) columns with outerKeyStarts := [none] }

theorem settle_inBrackets :
    (inBrackets p (']' :: cs) ts columns).settle = some (inBrackets p (']' :: cs) ts columns) := by
  have hidle : idle true true false p (']' :: cs) = (true, ⟨p, ']' :: cs⟩) :=
    idle_char _ _ _ rfl (by decide) (by decide)
  have hskip : (inBrackets p (']' :: cs) ts columns).skipIdle = inBrackets p (']' :: cs) ts columns :=
    congrArg (fun x : Bool × Cursor =>
      { inBrackets p (']' :: cs) ts columns with keyAllowed := x.1, cursor := x.2 }) hidle
  rw [settle, hskip]
  rfl

/-- Brackets with nothing between them. -/
theorem leads_brackets (hp : column ≤ p.column) :
    ∃ q, q.column = 0 ∧
      (between false p (' ' :: '[' :: ']' :: '\n' :: rest) ts (column :: columns)).Leads
        (between true q rest (.listEnd :: .listStart :: ts) (column :: columns)) := by
  have hsettle := @settle_between false p '[' (']' :: '\n' :: rest) ts (column :: columns) 1 rfl (by decide)
    (by decide) fun d hd => by
      have hd := Option.some.inj hd
      omega
  generalize hstart : (spaces 1).foldl Position.step p = start at hsettle
  have hcolumn : start.column = p.column + 1 := hstart ▸ (OnLine.spaces 1).column_eq p
  have hopen : (between false start ('[' :: ']' :: '\n' :: rest) ts (column :: columns)).next '['
      (']' :: '\n' :: rest) =
        some (inBrackets (start.step '[') (']' :: '\n' :: rest) ts (column :: columns)) := by
    have hpos : (between false start ('[' :: ']' :: '\n' :: rest) ts (column :: columns)).column ≠ 0 := by
      show start.column ≠ 0
      omega
    simp only [next, hpos]
    rfl
  have hclose : (inBrackets (start.step '[') (']' :: '\n' :: rest) ts (column :: columns)).next ']'
      ('\n' :: rest) =
      some (between false ((start.step '[').step ']') ('\n' :: rest) (.listEnd :: .listStart :: ts)
        (column :: columns)) := by
    have hpos : (inBrackets (start.step '[') (']' :: '\n' :: rest) ts (column :: columns)).column ≠ 0 := by
      show (start.step '[').column ≠ 0
      rw [column_step rfl]
      omega
    simp only [next, hpos]
    rfl
  refine ⟨_, column_step_break (show isBreak '\n' = true from rfl) ((start.step '[').step ']'), ?_⟩
  refine Leads.trans (.token hsettle rfl hopen rfl ?_) (.token settle_inBrackets rfl hclose settle_break ?_)
  · simp [inBrackets, between]
  · simp only [inBrackets, between, List.length_cons]
    omega

/-- The dash of an item. -/
theorem leads_dash (hp : p.column = 0) :
    ∃ q, column < q.column ∧
      (between true p (spaces column ++ ('-' :: ' ' :: rest)) ts (column :: columns)).Leads
        (between true q (' ' :: rest) (.item :: ts) (column :: columns)) := by
  have hsettle := @settle_between true p '-' (' ' :: rest) ts (column :: columns) column rfl (by decide)
    (by decide) fun d hd => by
      have hd := Option.some.inj hd
      omega
  generalize hstart : (spaces column).foldl Position.step p = start at hsettle
  have hcolumn : start.column = column := by
    rw [← hstart, (OnLine.spaces column).column_eq, hp, spaces, List.length_replicate, Nat.zero_add]
  have htriple : startsTriple '-' ('-' :: ' ' :: rest) = false := by
    cases rest <;> simp [startsTriple]
  have hdot : startsTriple '.' ('-' :: ' ' :: rest) = false := startsTriple_of_ne (by decide)
  have hitem : (between true start ('-' :: ' ' :: rest) ts (column :: columns)).next '-' (' ' :: rest) =
      some (between true (start.step '-') (' ' :: rest) (.item :: ts) (column :: columns)) := by
    have hopen : (between true start ('-' :: ' ' :: rest) ts (column :: columns)).openBlock start.column
        ts.length .blockListStart = between true start ('-' :: ' ' :: rest) ts (column :: columns) := by
      simp [openBlock, between, hcolumn]
    have hnext : (between true start ('-' :: ' ' :: rest) ts (column :: columns)).next '-' (' ' :: rest) =
        (between true start ('-' :: ' ' :: rest) ts (column :: columns)).item := by
      simp [next, htriple, hdot, startsSpace, isSpace, isBlank]
    rw [hnext, item, if_neg (by simp [between])]
    exact congrArg
      (fun s : Lexer => s.dropKey.map fun s => { (s.emit .item).skip 1 with keyAllowed := true }) hopen
  refine ⟨start.step '-', ?_, .token hsettle rfl hitem rfl ?_⟩
  · rw [column_step rfl]
    omega
  · simp [between]
    omega

end

/-! ## The end -/

/-- At the end of the text a map ends that is open in the first column. -/
theorem run_end (hp : p.column = 0) (n : Nat) :
    (between allowed p [] ts [0]).run (n + 1) = some (ts.reverse ++ [.blockEnd]) := by
  have hclose : (between allowed p [] ts [0]).closeBlocks (p.column < ·) = between allowed p [] ts [0] :=
    closeBlocks_eq_self rfl fun d hd => by
      have hd := Option.some.inj hd
      exact decide_eq_false (by omega)
  have hsettle : (between allowed p [] ts [0]).settle = some (between allowed p [] ts [0]) :=
    congrArg some hclose
  rw [run, hsettle]
  show (between allowed p [] ts [0]).finish = _
  rw [finish, closeBlocks_between]
  show some (List.reverse (.blockEnd :: ts)) = _
  rw [List.reverse_cons]

end Lexer

end PointsTo.Yaml
