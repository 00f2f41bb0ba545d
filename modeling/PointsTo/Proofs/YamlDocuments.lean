import PointsTo.Proofs.YamlTokens
import PointsTo.Yaml.Reader

/-!
# Documents are read back

`parse?_write` is for maps with words as keys whose scalars fit on a line each (`Tidy`).

The lines of the printer become tokens part by part: `Tidy.readsMember` says which tokens the lines of a
member turn into, wherever they stand. What follows them matters only in that it is not indented further
(`StartsLine`), since a scalar goes on over lines that are. The tokens become nodes again in the same way,
where what follows must not be one more item (`Tidy.readsPart`). Both are inductions on the tree.
-/

namespace PointsTo.Yaml

/-! ## Trees on lines -/

/-- A scalar on one line. -/
def IsLine (y : Yaml) : Prop := ∃ style text, y = .scalar style none text ∧ OneLine style text

/-- A key that is a word. -/
structure IsKey (y : Yaml) (word : String) : Prop where
  eq : y = .scalar .plain none word
  isWord : IsWord word.toList
  /-- It is short enough to be found as a key. -/
  length_le : word.toList.length ≤ 256

/-- All keys of a map are words. -/
def HasKeys (members : List (Yaml × Yaml)) : Prop := ∀ m ∈ members, ∃ word, IsKey m.1 word

/-- A tree whose scalars are written on one line: a scalar, a list of scalars, or a map of words to such
trees. -/
inductive Tidy : Yaml → Prop
  | line {y : Yaml} (h : IsLine y) : Tidy y
  | list {items : List Yaml} (h : ∀ y ∈ items, IsLine y) : Tidy (.list items)
  | map {members : List (Yaml × Yaml)} (hne : members ≠ []) (hkeys : HasKeys members)
    (hvalues : ∀ m ∈ members, Tidy m.2) : Tidy (.map members)

theorem tidy_map_iff {members : List (Yaml × Yaml)} :
    Tidy (.map members) ↔ members ≠ [] ∧ HasKeys members ∧ ∀ m ∈ members, Tidy m.2 := by
  refine ⟨fun h => ?_, fun ⟨hne, hkeys, hvalues⟩ => .map hne hkeys hvalues⟩
  cases h with
  | line h =>
    obtain ⟨_, _, heq, _⟩ := h
    cases heq
  | map hne hkeys hvalues => exact ⟨hne, hkeys, hvalues⟩

mutual

/-- The tokens of a value. -/
def valueTokens : Yaml → List Token
  | .scalar style _ text => [.scalar style text]
  | .reference _ => []
  | .list [] => [.listStart, .listEnd]
  | .list (y :: ys) => .item :: valueTokens y ++ itemTokens ys
  | .map ms => .blockMapStart :: (memberTokens ms ++ [.blockEnd])

/-- The tokens of the items of a list. -/
def itemTokens : List Yaml → List Token
  | [] => []
  | y :: ys => .item :: valueTokens y ++ itemTokens ys

/-- The tokens of the members of a map. -/
def memberTokens : List (Yaml × Yaml) → List Token
  | [] => []
  | (k, y) :: ms => .key :: valueTokens k ++ .value :: valueTokens y ++ memberTokens ms

end

theorem valueTokens_list (y : Yaml) (ys : List Yaml) :
    valueTokens (.list (y :: ys)) = itemTokens (y :: ys) := by
  rw [valueTokens, itemTokens]

/-! ## Lines -/

/-- All lines of a text hold characters that are written as they are. -/
def Writable (ls : List Line) : Prop := ∀ l ∈ ls, ∀ c ∈ l.text, isWritable c = true

theorem Line.chars_eq {l : Line} (h : ∀ c ∈ l.text, isWritable c = true) :
    l.chars = spaces l.indent ++ (l.text ++ ['\n']) := by
  have hlast : l.text.getLast?.any isBreak = false := by
    rw [Option.any_eq_false]
    intro c hc
    rw [isBreak_of_isWritable (h c (List.mem_of_getLast? hc))]
  rw [Line.chars, hlast, if_neg Bool.false_ne_true, List.append_assoc]

theorem IsKey.keyChars_eq {k : Yaml} {word : String} (h : IsKey k word) (column : Nat) :
    keyChars column k = word.toList := by
  rw [h.eq]
  rfl

theorem list_memberLine (column : Nat) (key : List Char) (y : Yaml) (ys : List Yaml) :
    memberLine column key (.list (y :: ys)) = ⟨column, key ++ [':']⟩ :: itemLines column (y :: ys) := by
  rw [memberLine, itemLines]

theorem map_memberLine {m : Yaml × Yaml} {word : String} (hm : IsKey m.1 word) (column : Nat)
    (key : List Char) (ms : List (Yaml × Yaml)) : memberLine column key (.map (m :: ms)) =
      ⟨column, key ++ [':']⟩ :: memberLines (column + 2) (m :: ms) := by
  rw [memberLine, memberLines, hm.keyChars_eq, hm.keyChars_eq]

/-- A member starts with its key, whatever its value is. -/
theorem exists_memberLine (column : Nat) (key : List Char) (y : Yaml) :
    ∃ cs ls, memberLine column key y = ⟨column, key ++ ':' :: cs⟩ :: ls := by
  match y with
  | .scalar .. => exact ⟨_, _, by rw [memberLine]⟩
  | .reference _ => exact ⟨_, _, by rw [memberLine]⟩
  | .list [] => exact ⟨_, _, by rw [memberLine]⟩
  | .list (_ :: _) => exact ⟨_, _, by rw [memberLine]⟩
  | .map [] => exact ⟨_, _, by rw [memberLine]⟩
  | .map (_ :: _) => exact ⟨_, _, by rw [memberLine]⟩

theorem writable_scalar {style : Style} {text : String} (h : OneLine style text) (indent : Nat) :
    ∀ c ∈ ' ' :: scalarChars indent style text, isWritable c = true :=
  List.forall_mem_cons.2 ⟨rfl, fun c hc => isWritable_of_mem_scalarChars h c hc⟩

theorem writable_brackets : ∀ c ∈ [' ', '[', ']'], isWritable c = true := List.all_eq_true.1 rfl

theorem writable_key {word cs : List Char} (hword : ∀ c ∈ word, isWritable c = true)
    (hcs : ∀ c ∈ cs, isWritable c = true) : ∀ c ∈ word ++ ':' :: cs, isWritable c = true :=
  List.forall_mem_append.2 ⟨hword, List.forall_mem_cons.2 ⟨rfl, hcs⟩⟩

theorem writable_itemLines {column : Nat} {ys : List Yaml} (h : ∀ y ∈ ys, IsLine y) :
    Writable (itemLines column ys) := by
  induction ys with
  | nil => exact nofun
  | cons y ys ih =>
    obtain ⟨⟨style, text, rfl, hline⟩, hys⟩ := List.forall_mem_cons.1 h
    rw [itemLines, nodeLines, dashFirst, List.cons_append]
    exact List.forall_mem_cons.2 ⟨List.forall_mem_cons.2 ⟨rfl, writable_scalar hline _⟩, ih hys⟩

theorem writable_memberLines {ms : List (Yaml × Yaml)} (hkeys : HasKeys ms)
    (hvalues : ∀ m ∈ ms, ∀ {column : Nat} {word : List Char}, (∀ c ∈ word, isWritable c = true) →
      Writable (memberLine column word m.2)) (column : Nat) : Writable (memberLines column ms) := by
  induction ms with
  | nil => exact nofun
  | cons m ms ih =>
    obtain ⟨⟨word, hword⟩, hkeys⟩ := List.forall_mem_cons.1 hkeys
    obtain ⟨hvalue, hvalues⟩ := List.forall_mem_cons.1 hvalues
    rw [memberLines, hword.keyChars_eq]
    exact List.forall_mem_append.2 ⟨hvalue hword.isWord.isWritable, ih hkeys hvalues⟩

theorem Tidy.writable_memberLine {y : Yaml} (h : Tidy y) {column : Nat} {word : List Char}
    (hword : ∀ c ∈ word, isWritable c = true) : Writable (memberLine column word y) := by
  induction h generalizing column word with
  | line h =>
    obtain ⟨style, text, rfl, hline⟩ := h
    rw [memberLine]
    exact List.forall_mem_singleton.2 (writable_key hword (writable_scalar hline _))
  | @list items h =>
    cases items with
    | nil =>
      rw [memberLine]
      exact List.forall_mem_singleton.2 (writable_key hword writable_brackets)
    | cons y ys =>
      rw [list_memberLine]
      exact List.forall_mem_cons.2 ⟨writable_key hword nofun, writable_itemLines h⟩
  | map hne hkeys hvalues ih =>
    obtain ⟨m, ms, rfl⟩ := List.exists_cons_of_ne_nil hne
    obtain ⟨first, hfirst⟩ := hkeys m List.mem_cons_self
    rw [map_memberLine hfirst]
    exact List.forall_mem_cons.2 ⟨writable_key hword nofun, writable_memberLines hkeys ih _⟩

/-! ## From lines to tokens -/

/-- A line is not indented further than its first character shows. -/
theorem startsLine_cons {l : Line} {ls : List Line} {c : Char} {cs rest : List Char}
    (htext : l.text = c :: cs) (hc : isSpace c = false) (hhash : c ≠ '#') (hmark : c ≠ byteOrderMark) :
    StartsLine (l.indent + 1) ((l :: ls).flatMap Line.chars ++ rest) := by
  have hchars : (l :: ls).flatMap Line.chars ++ rest = spaces l.indent ++
      c :: (cs ++ ((if l.text.getLast?.any isBreak then [] else ['\n']) ++
        (ls.flatMap Line.chars ++ rest))) := by
    simp only [List.flatMap_cons, Line.chars, htext, List.append_assoc, List.cons_append]
  exact Or.inr ⟨l.indent, c, _, Nat.lt_succ_self _, hc, hhash, hmark, hchars⟩

section

variable {column : Nat} {p : Position} {rest : List Char} {ts ts' : List Token}
  {columns columns' : List Nat}

open Lexer

theorem startsLine_itemLines {ys : List Yaml} (h : ∀ y ∈ ys, IsLine y)
    (hrest : StartsLine (column + 1) rest) :
    StartsLine (column + 1) ((itemLines column ys).flatMap Line.chars ++ rest) := by
  cases ys with
  | nil => exact hrest
  | cons y ys =>
    obtain ⟨style, text, rfl, hline⟩ := h y List.mem_cons_self
    rw [itemLines, nodeLines, dashFirst, List.cons_append]
    exact startsLine_cons rfl rfl (by decide) (by decide)

theorem startsLine_memberLines {ms : List (Yaml × Yaml)} (hkeys : HasKeys ms)
    (hrest : StartsLine (column + 1) rest) :
    StartsLine (column + 1) ((memberLines column ms).flatMap Line.chars ++ rest) := by
  cases ms with
  | nil => exact hrest
  | cons m ms =>
    obtain ⟨word, hword⟩ := hkeys m List.mem_cons_self
    obtain ⟨c, hc, halnum⟩ := hword.isWord.start
    obtain ⟨cs, hcs⟩ := List.head?_eq_some_iff.1 hc
    obtain ⟨hspace, -, hhash⟩ := of_isWordChar (hword.isWord.chars c (List.mem_of_head? hc))
    obtain ⟨tail, ls, hlines⟩ := exists_memberLine column word.toList m.2
    have hmark : c ≠ byteOrderMark := by
      rintro rfl
      cases halnum
    rw [memberLines, hword.keyChars_eq, hlines, List.cons_append]
    exact startsLine_cons (by rw [hcs, List.cons_append]) hspace hhash hmark

/-- The lines of the items of a list. -/
theorem leads_itemLines {ys : List Yaml} (h : ∀ y ∈ ys, IsLine y) (hp : p.column = 0)
    (hrest : StartsLine (column + 1) rest) : ∃ q, q.column = 0 ∧
      (between true p ((itemLines column ys).flatMap Line.chars ++ rest) ts (column :: columns)).Leads
        (between true q rest ((itemTokens ys).reverse ++ ts) (column :: columns)) := by
  induction ys generalizing p ts with
  | nil => exact ⟨p, hp, .of_settle rfl (Nat.le_refl _)⟩
  | cons y ys ih =>
    obtain ⟨⟨style, text, rfl, hline⟩, hys⟩ := List.forall_mem_cons.1 h
    have hlines : (itemLines column (.scalar style none text :: ys)).flatMap Line.chars ++ rest =
        spaces column ++ '-' :: ' ' :: (scalarChars (column + 2) style text ++
          '\n' :: ((itemLines column ys).flatMap Line.chars ++ rest)) := by
      have hmax : max 2 (column + 2) = column + 2 := Nat.max_eq_right (Nat.le_add_left _ _)
      have hwritable : ∀ c ∈ '-' :: ' ' :: scalarChars (column + 2) style text, isWritable c = true :=
        List.forall_mem_cons.2 ⟨rfl, writable_scalar hline _⟩
      rw [itemLines, nodeLines, dashFirst, List.cons_append, List.nil_append, List.flatMap_cons, hmax,
        Line.chars_eq hwritable]
      simp
    obtain ⟨q, hq, hdash⟩ := @leads_dash p _ ts columns column hp
    obtain ⟨r, hr, hscalar⟩ := leads_scalar hline (Nat.le_of_lt hq) (startsLine_itemLines hys hrest)
    obtain ⟨last, hlast, hitems⟩ := ih hys hr
    refine ⟨last, hlast, ?_⟩
    rw [hlines, itemTokens, valueTokens]
    simpa using hdash.trans (hscalar.trans hitems)

/-- The lines of a member lead to its tokens. -/
def ReadsMember (y : Yaml) : Prop :=
  ∀ ⦃column : Nat⦄ ⦃word : String⦄ ⦃p : Position⦄ ⦃rest : List Char⦄ ⦃ts ts' : List Token⦄
    ⦃columns columns' : List Nat⦄, IsWord word.toList → word.toList.length ≤ 256 → p.column = 0 →
    Opens column ts columns ts' columns' → StartsLine (column + 1) rest → ∃ q, q.column = 0 ∧
      (between true p ((memberLine column word.toList y).flatMap Line.chars ++ rest) ts columns).Leads
        (between true q rest ((valueTokens y).reverse ++ .value :: .scalar .plain word :: .key :: ts')
          columns')

/-- The lines of the members of a map, of which the first one may be what opens it. -/
theorem leads_memberLines {m : Yaml × Yaml} {ms : List (Yaml × Yaml)} (hkeys : HasKeys (m :: ms))
    (hvalues : ∀ m' ∈ m :: ms, ReadsMember m'.2) (hp : p.column = 0)
    (hopens : Opens column ts columns ts' columns') (hrest : StartsLine (column + 1) rest) :
    ∃ q, q.column = 0 ∧
      (between true p ((memberLines column (m :: ms)).flatMap Line.chars ++ rest) ts columns).Leads
        (between true q rest ((memberTokens (m :: ms)).reverse ++ ts') columns') := by
  induction ms generalizing m p ts ts' columns with
  | nil =>
    obtain ⟨word, hword⟩ := hkeys m List.mem_cons_self
    obtain ⟨q, hq, hlead⟩ :=
      hvalues m List.mem_cons_self hword.isWord hword.length_le hp hopens hrest
    refine ⟨q, hq, ?_⟩
    rw [memberLines, memberLines, hword.keyChars_eq, memberTokens, memberTokens, hword.eq, valueTokens]
    simpa using hlead
  | cons m' ms ih =>
    obtain ⟨word, hword⟩ := hkeys m List.mem_cons_self
    obtain ⟨hvalue, hvalues⟩ := List.forall_mem_cons.1 hvalues
    obtain ⟨-, hkeys⟩ := List.forall_mem_cons.1 hkeys
    obtain ⟨q, hq, hlead⟩ :=
      hvalue hword.isWord hword.length_le hp hopens (startsLine_memberLines hkeys hrest)
    -- from the second member on the map is open
    obtain ⟨ds, rfl⟩ := hopens.exists_eq
    obtain ⟨last, hlast, hmembers⟩ := ih hkeys hvalues hq .old
    refine ⟨last, hlast, ?_⟩
    rw [memberLines, hword.keyChars_eq, List.flatMap_append, List.append_assoc, memberTokens, hword.eq,
      valueTokens]
    simpa using hlead.trans hmembers

/-- A key with nothing but its colon on its line. -/
theorem leads_bareKey {word : String} {cs : List Char} (hword : IsWord word.toList)
    (hlength : word.toList.length ≤ 256) (hp : p.column = 0)
    (hopens : Opens column ts columns ts' columns') : ∃ q, q.column = 0 ∧
      (between true p (Line.chars ⟨column, word.toList ++ [':']⟩ ++ cs) ts columns).Leads
        (between true q cs (.value :: .scalar .plain word :: .key :: ts') columns') := by
  have hchars : Line.chars ⟨column, word.toList ++ [':']⟩ ++ cs =
      spaces column ++ (word.toList ++ ':' :: '\n' :: cs) := by
    rw [Line.chars_eq (writable_key hword.isWritable (by simp))]
    simp
  obtain ⟨q, -, hkey⟩ :=
    leads_key hword hlength (show startsSpace ('\n' :: cs) = true from rfl) hp hopens
  refine ⟨q.step '\n', column_step_break (show isBreak '\n' = true from rfl) q, ?_⟩
  rw [hchars]
  exact hkey.trans (.of_settle settle_break (Nat.le_succ _))

theorem Tidy.readsMember {y : Yaml} (h : Tidy y) : ReadsMember y := by
  induction h with
  | line h =>
    obtain ⟨style, text, rfl, hline⟩ := h
    intro column word p rest ts ts' columns columns' hword hlength hp hopens hrest
    obtain ⟨ds, rfl⟩ := hopens.exists_eq
    have hstarts : startsSpace (' ' :: (scalarChars (column + 2) style text ++ '\n' :: rest)) = true := rfl
    obtain ⟨q, hq, hkey⟩ := leads_key hword hlength hstarts hp hopens
    obtain ⟨r, hr, hscalar⟩ := leads_scalar hline (Nat.le_of_lt hq) hrest
    refine ⟨r, hr, ?_⟩
    rw [memberLine, List.flatMap_cons,
      Line.chars_eq (writable_key hword.isWritable (writable_scalar hline _)), valueTokens]
    simpa using hkey.trans hscalar
  | @list items h =>
    intro column word p rest ts ts' columns columns' hword hlength hp hopens hrest
    obtain ⟨ds, rfl⟩ := hopens.exists_eq
    cases items with
    | nil =>
      have hstarts : startsSpace (' ' :: '[' :: ']' :: '\n' :: rest) = true := rfl
      obtain ⟨q, hq, hkey⟩ := leads_key hword hlength hstarts hp hopens
      obtain ⟨r, hr, hbrackets⟩ := leads_brackets (Nat.le_of_lt hq)
      refine ⟨r, hr, ?_⟩
      rw [memberLine, List.flatMap_cons, Line.chars_eq (writable_key hword.isWritable writable_brackets),
        valueTokens]
      simpa using hkey.trans hbrackets
    | cons y ys =>
      obtain ⟨q, hq, hkey⟩ := leads_bareKey hword hlength hp hopens
      obtain ⟨r, hr, hitems⟩ := leads_itemLines h hq hrest
      refine ⟨r, hr, ?_⟩
      rw [list_memberLine, List.flatMap_cons, List.append_assoc, valueTokens_list]
      exact hkey.trans hitems
  | map hne hkeys hvalues ih =>
    intro column word p rest ts ts' columns columns' hword hlength hp hopens hrest
    obtain ⟨m, ms, rfl⟩ := List.exists_cons_of_ne_nil hne
    obtain ⟨first, hfirst⟩ := hkeys m List.mem_cons_self
    obtain ⟨ds, rfl⟩ := hopens.exists_eq
    obtain ⟨q, hq, hkey⟩ := leads_bareKey hword hlength hp hopens
    have hopen : Opens (column + 2) (.value :: .scalar .plain word :: .key :: ts') (column :: ds)
        (.blockMapStart :: .value :: .scalar .plain word :: .key :: ts') ((column + 2) :: column :: ds) :=
      .new fun d hd => by
        have hd := Option.some.inj hd
        omega
    obtain ⟨r, hr, hmembers⟩ := leads_memberLines hkeys ih hq hopen (hrest.mono (by omega))
    -- what follows is not indented as far, so the map ends
    have hlead := hkey.trans (hmembers.trans (.of_settle
      (settle_close (Nat.succ_pos _) hr (hrest.mono (Nat.le_succ _))) (Nat.le_refl _)))
    refine ⟨r, hr, ?_⟩
    rw [map_memberLine hfirst, List.flatMap_cons, List.append_assoc, valueTokens]
    simpa using hlead

end

/-! ## From a text to tokens -/

theorem unifyBreaks_eq_self {cs : List Char} (h : ∀ c ∈ cs, c ≠ '\r' ∧ c ≠ '\x85') :
    unifyBreaks cs = cs := by
  induction cs with
  | nil => rfl
  | cons c cs ih =>
    obtain ⟨⟨hreturn, hnext⟩, hcs⟩ := List.forall_mem_cons.1 h
    rw [unifyBreaks, if_neg (by simp [hreturn, hnext]), ih hcs]
    exact fun _ hc => absurd hc hreturn

theorem isWritable_or_eq_of_mem_chars {ls : List Line} (h : Writable ls) {c : Char}
    (hc : c ∈ ls.flatMap Line.chars) : isWritable c = true ∨ c = '\n' := by
  obtain ⟨l, hl, hc⟩ := List.mem_flatMap.1 hc
  rw [Line.chars_eq (h l hl)] at hc
  rcases List.mem_append.1 hc with hc | hc
  · rw [List.eq_of_mem_replicate hc]
    exact Or.inl rfl
  rcases List.mem_append.1 hc with hc | hc
  · exact Or.inl (h l hl c hc)
  · exact Or.inr (List.mem_singleton.1 hc)

/-- The tokens of lines that hold nothing unusual are those that a run finds. -/
theorem tokens?_lines {ls : List Line} (h : Writable ls) :
    tokens? (String.ofList (ls.flatMap Line.chars)) =
      Lexer.run ((ls.flatMap Line.chars).length + 1)
        (.between true {} (ls.flatMap Line.chars) [] []) := by
  have hchars : ∀ c ∈ ls.flatMap Line.chars, isWritable c = true ∨ c = '\n' :=
    fun c hc => isWritable_or_eq_of_mem_chars h hc
  have hreadable : (ls.flatMap Line.chars).all isReadable = true := by
    rw [List.all_eq_true]
    intro c hc
    rcases hchars c hc with hc | rfl
    · rw [isWritable, Bool.and_eq_true] at hc
      exact isReadable_of_isPrintable hc.1
    · rfl
  have hunify : unifyBreaks (ls.flatMap Line.chars) = ls.flatMap Line.chars := by
    refine unifyBreaks_eq_self fun c hc => ⟨?_, ?_⟩
    all_goals
      rintro rfl
      rcases hchars _ hc with hc | hc
      · cases hc
      · cases hc
  simp only [tokens?, String.toList_ofList, hreadable, if_true, hunify]
  rfl

open Lexer in
/-- The tokens of a document that holds a map. -/
theorem tokens?_write {members : List (Yaml × Yaml)} (h : Tidy (.map members)) :
    tokens? (write (.map members)) = some (valueTokens (.map members)) := by
  obtain ⟨hne, hkeys, hvalues⟩ := tidy_map_iff.1 h
  obtain ⟨m, ms, rfl⟩ := List.exists_cons_of_ne_nil hne
  have hlines : nodeLines 0 (.map (m :: ms)) = memberLines 0 (m :: ms) := by
    rw [nodeLines, memberLines]
  have hwritable := writable_memberLines hkeys (fun m hm => (hvalues m hm).writable_memberLine) 0
  obtain ⟨q, hq, k, hk, hrun⟩ := leads_memberLines hkeys (fun m hm => (hvalues m hm).readsMember)
    (show Position.column {} = 0 from rfl) (show Opens 0 [] [] [.blockMapStart] [0] from .new nofun)
    (show StartsLine 1 [] from Or.inl rfl)
  rw [write, hlines, tokens?_lines hwritable, valueTokens]
  generalize (memberLines 0 (m :: ms)).flatMap Line.chars = cs at hk hrun ⊢
  have hfuel : k ≤ cs.length := by simpa [between] using hk
  have hend := (hrun (cs.length - k)).trans (run_end hq _)
  rw [Nat.sub_add_cancel hfuel] at hend
  simpa using hend

/-! ## From tokens to a tree -/

section

variable {handles : Handles} {place : Place} {t : Token} {ts rest : List Token} {a : Anchors} {n : Nat}

/-- Where nothing stands in front of a node, its contents are all there is. -/
theorem node_eq (hproperties : properties (t :: ts) = ({}, t :: ts))
    (hreference : ∀ name, t ≠ .reference name) :
    node handles place ⟨t :: ts, a⟩ (n + 1) = content handles place none false ⟨t :: ts, a⟩ n := by
  rw [node]
  simp only [hproperties]
  cases t with
  | reference name => exact absurd rfl (hreference name)
  | _ =>
    generalize hcontent : content handles place none false _ n = read
    cases read <;> simp [hcontent, Anchors.finish]

theorem IsLine.node_eq {y : Yaml} (h : IsLine y) (hn : 2 ≤ n) :
    node handles place ⟨valueTokens y ++ rest, a⟩ n = some (y, ⟨rest, a⟩) := by
  obtain ⟨style, text, rfl, -⟩ := h
  obtain ⟨n, rfl⟩ := Nat.exists_eq_add_of_le' hn
  rw [valueTokens, List.singleton_append, Yaml.node_eq rfl (by simp), content]

theorem IsLine.length_valueTokens {y : Yaml} (h : IsLine y) : (valueTokens y).length = 1 := by
  obtain ⟨style, text, rfl, -⟩ := h
  rfl

theorem length_itemTokens {ys : List Yaml} (h : ∀ y ∈ ys, IsLine y) :
    (itemTokens ys).length = 2 * ys.length := by
  induction ys with
  | nil => rfl
  | cons y ys ih =>
    obtain ⟨hy, hys⟩ := List.forall_mem_cons.1 h
    rw [itemTokens, List.cons_append, List.length_cons, List.length_append, hy.length_valueTokens, ih hys,
      List.length_cons]
    omega

theorem Tidy.endsMember_eq {y : Yaml} (h : Tidy y) : endsMember (valueTokens y ++ rest) = false := by
  cases h with
  | line h =>
    obtain ⟨style, text, rfl, -⟩ := h
    rfl
  | @list items =>
    cases items with
    | nil => rfl
    | cons y ys => rfl
  | map => rfl

/-- The items of a list are read from their tokens. -/
theorem memberItems_eq {ys before : List Yaml} (h : ∀ y ∈ ys, IsLine y)
    (hrest : rest.head? ≠ some .item) (hn : ys.length + 2 ≤ n) :
    memberItems handles before ⟨itemTokens ys ++ rest, a⟩ n =
      some (list (before.reverse ++ ys), ⟨rest, a⟩) := by
  induction ys generalizing before n with
  | nil =>
    obtain ⟨n, rfl⟩ := Nat.exists_eq_add_of_le' (Nat.le_of_succ_le hn)
    rw [itemTokens, List.nil_append, List.append_nil, memberItems.eq_def]
    simp only
    split
    · exact absurd rfl hrest
    · rfl
  | cons y ys ih =>
    obtain ⟨hy, hys⟩ := List.forall_mem_cons.1 h
    rw [List.length_cons] at hn
    obtain ⟨n, rfl⟩ : ∃ m, n = m + 1 := ⟨n - 1, by omega⟩
    have hend : (endsMember (valueTokens y ++ (itemTokens ys ++ rest)) ||
        (valueTokens y ++ (itemTokens ys ++ rest)).head? = some .item) = false := by
      obtain ⟨style, text, rfl, -⟩ := hy
      rfl
    rw [itemTokens, List.cons_append, List.cons_append, List.append_assoc, memberItems.eq_def]
    simp only [hend, hy.node_eq (show 2 ≤ n by omega)]
    rw [if_neg Bool.false_ne_true, ih hys (by omega), List.reverse_cons, List.append_assoc,
      List.singleton_append]

/-- The tokens of a key or value are read as what they stand for. -/
def ReadsPart (y : Yaml) : Prop :=
  ∀ ⦃handles : Handles⦄ ⦃rest : List Token⦄ ⦃a : Anchors⦄ ⦃n : Nat⦄, rest.head? ≠ some .item →
    4 * (valueTokens y).length < n →
    memberPart handles ⟨valueTokens y ++ rest, a⟩ n = some (y, ⟨rest, a⟩)

theorem IsLine.readsPart {y : Yaml} (h : IsLine y) : ReadsPart y := by
  intro handles rest a n hrest hn
  rw [h.length_valueTokens] at hn
  obtain ⟨n, rfl⟩ : ∃ m, n = m + 1 := ⟨n - 1, by omega⟩
  rw [memberPart, (Tidy.line h).endsMember_eq, if_neg Bool.false_ne_true, h.node_eq (by omega)]

theorem HasKeys.readsPart {members : List (Yaml × Yaml)} (h : HasKeys members) :
    ∀ m ∈ members, ReadsPart m.1 := by
  intro m hm
  obtain ⟨word, hword⟩ := h m hm
  exact IsLine.readsPart ⟨_, _, hword.eq, .ofWord hword.isWord⟩

/-- The members of a map are read from their tokens. -/
theorem blockMembers_eq {ms before : List (Yaml × Yaml)} (hkeys : ∀ m ∈ ms, ReadsPart m.1)
    (hvalues : ∀ m ∈ ms, ReadsPart m.2) (hn : 4 * (memberTokens ms).length < n) :
    blockMembers handles before ⟨memberTokens ms ++ .blockEnd :: rest, a⟩ n =
      some (map (before.reverse ++ ms), ⟨rest, a⟩) := by
  induction ms generalizing before n with
  | nil =>
    obtain ⟨n, rfl⟩ := Nat.exists_eq_add_of_le' (Nat.zero_lt_of_lt hn)
    rw [memberTokens, List.nil_append, List.append_nil, blockMembers.eq_def]
  | cons m ms ih =>
    obtain ⟨hkey, hkeys⟩ := List.forall_mem_cons.1 hkeys
    obtain ⟨hvalue, hvalues⟩ := List.forall_mem_cons.1 hvalues
    have hnext : (memberTokens ms ++ .blockEnd :: rest).head? ≠ some .item := by
      cases ms with
      | nil => simp [memberTokens]
      | cons => simp [memberTokens]
    have htokens : memberTokens (m :: ms) ++ .blockEnd :: rest = .key :: (valueTokens m.1 ++
        .value :: (valueTokens m.2 ++ (memberTokens ms ++ .blockEnd :: rest))) := by
      simp [memberTokens]
    have hlength : (memberTokens (m :: ms)).length =
        (valueTokens m.1).length + (valueTokens m.2).length + (memberTokens ms).length + 2 := by
      simp [memberTokens]
      omega
    obtain ⟨n, rfl⟩ : ∃ m, n = m + 1 := ⟨n - 1, by omega⟩
    rw [htokens, blockMembers.eq_def]
    simp only [hkey (show (Token.value :: _).head? ≠ some .item by simp) (show _ < n by omega)]
    simp only [hvalue hnext (show _ < n by omega)]
    rw [ih hkeys hvalues (by omega), List.reverse_cons, List.append_assoc, List.singleton_append]

/-- A map is read from its tokens. -/
theorem node_map {members : List (Yaml × Yaml)} (hkeys : HasKeys members)
    (hvalues : ∀ m ∈ members, ReadsPart m.2) (hplace : place ≠ .flow)
    (hn : 4 * (valueTokens (.map members)).length ≤ n) :
    node handles place ⟨valueTokens (.map members) ++ rest, a⟩ n =
      some (.map members, ⟨rest, a⟩) := by
  have hlength : (valueTokens (.map members)).length = (memberTokens members).length + 2 := by
    simp [valueTokens]
  obtain ⟨n, rfl⟩ : ∃ m, n = m + 2 := ⟨n - 2, by omega⟩
  have hmembers := @blockMembers_eq handles rest a n members [] hkeys.readsPart hvalues (by omega)
  rw [valueTokens, List.cons_append, List.append_assoc, List.singleton_append, node_eq rfl (by simp),
    content.eq_def]
  simpa [hplace] using hmembers

theorem Tidy.readsPart {y : Yaml} (h : Tidy y) : ReadsPart y := by
  induction h with
  | line h => exact h.readsPart
  | @list items h =>
    intro handles rest a n hrest hn
    have hends := @(Tidy.list h).endsMember_eq rest
    cases items with
    | nil =>
      rw [valueTokens, List.length_cons, List.length_singleton] at hn
      obtain ⟨n, rfl⟩ : ∃ m, n = m + 4 := ⟨n - 4, by omega⟩
      rw [memberPart, hends, if_neg Bool.false_ne_true, valueTokens, List.cons_append,
        node_eq rfl (by simp)]
      rfl
    | cons y ys =>
      rw [valueTokens_list] at hn hends ⊢
      have hlength := length_itemTokens h
      rw [List.length_cons] at hlength
      obtain ⟨n, rfl⟩ : ∃ m, n = m + 3 := ⟨n - 3, by omega⟩
      have hitems := @memberItems_eq handles rest a n (y :: ys) [] h hrest (by rw [List.length_cons]; omega)
      rw [memberPart, hends, if_neg Bool.false_ne_true, itemTokens, List.cons_append, List.cons_append,
        node_eq rfl (by simp), content.eq_def]
      exact hitems
  | map hne hkeys hvalues ih =>
    intro handles rest a n hrest hn
    obtain ⟨n, rfl⟩ : ∃ m, n = m + 1 := ⟨n - 1, by omega⟩
    rw [memberPart, (Tidy.map hne hkeys hvalues).endsMember_eq, if_neg Bool.false_ne_true]
    exact node_map hkeys ih nofun (Nat.le_of_lt_succ hn)

end

/-- A map of words to tidy values is read back from its document. -/
theorem parse?_write {members : List (Yaml × Yaml)} (h : Tidy (.map members)) :
    parse? (write (.map members)) = some ⟨.map members, []⟩ := by
  obtain ⟨-, hkeys, hvalues⟩ := tidy_map_iff.1 h
  have hroot : root? (valueTokens (.map members)) = some (.map members, ⟨[], {}⟩) := by
    have hnode := @node_map standardHandles .block [] {} (4 * (valueTokens (.map members)).length + 4)
      members hkeys (fun m hm => (hvalues m hm).readsPart) nofun (Nat.le_add_right _ _)
    rw [List.append_nil] at hnode
    rwa [root?, if_neg (by simp [valueTokens, startsExplicit])]
  rw [parse?, tokens?_write h, Option.bind_some, document?, if_neg (by simp [valueTokens]), hroot]
  simp [Anchors.table]

end PointsTo.Yaml
