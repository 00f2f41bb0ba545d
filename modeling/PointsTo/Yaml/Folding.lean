import PointsTo.Yaml.Character

/-!
# Scalars that go on over lines

Blanks inside a scalar belong to it, but not those around a line break. A line break counts as a space;
if blank lines follow it, they count instead of it, each as a line feed. The line separator and the
paragraph separator always count as themselves.

What blanks and line breaks count as shows only when the scalar goes on, so `Folding` keeps them apart from
the text until then.
-/

namespace PointsTo.Yaml

/-- The line breaks that a scalar has come to. -/
structure Breaks where
  /-- The first one, or nothing if it is escaped and counts as nothing. -/
  first : Option Char
  /-- Those of blank lines, last first. -/
  more : List Char
deriving DecidableEq

/-- What line breaks count as, last character first. -/
def Breaks.chars (b : Breaks) : List Char :=
  match b.first with
  | some '\n' => if b.more.isEmpty then [' '] else b.more
  | some c => b.more ++ [c]
  | none => b.more

/-- A scalar up to some place. -/
structure Folding where
  /-- Its text, last character first. -/
  text : List Char := []
  /-- Blanks behind the text, last first, unless there are line breaks. -/
  blanks : List Char := []
  /-- Line breaks behind the text. -/
  breaks : Option Breaks := none
deriving DecidableEq

namespace Folding

/-- Is there a line break behind the text? -/
def isBroken (f : Folding) : Bool := f.breaks.isSome

/-- Is there a blank or a line break behind the text? -/
def isSpaced (f : Folding) : Bool := f.isBroken || !f.blanks.isEmpty

/-- A blank or a line break is next. -/
def space (f : Folding) (c : Char) : Folding :=
  match f.breaks with
  | none => if isBreak c then { f with blanks := [], breaks := some ⟨some c, []⟩ }
    else { f with blanks := c :: f.blanks }
  | some b => if isBreak c then { f with breaks := some { b with more := c :: b.more } } else f

/-- Blanks and line breaks are part of the text. -/
def settle (f : Folding) : Folding :=
  match f.breaks with
  | none => { text := f.blanks ++ f.text }
  | some b => { text := b.chars ++ f.text }

/-- A character of the text is next. -/
def push (f : Folding) (c : Char) : Folding := { f.settle with text := c :: f.settle.text }

/-- An escaped line break is next. -/
def join (f : Folding) : Folding := { f.settle with breaks := some ⟨none, []⟩ }

/-- The text without the blanks and line breaks behind it. -/
def content (f : Folding) : List Char := f.text.reverse

/-- The text with the blanks and line breaks behind it. -/
def whole (f : Folding) : List Char := f.settle.content

theorem content_push (f : Folding) (c : Char) : (f.push c).content = f.whole ++ [c] := by
  simp [push, content, whole]

theorem isSpaced_push (f : Folding) (c : Char) : (f.push c).isSpaced = false := by
  cases h : f.breaks <;> simp [push, settle, isSpaced, isBroken, h]

theorem isBroken_push (f : Folding) (c : Char) : (f.push c).isBroken = false := by
  cases h : f.breaks <;> simp [push, settle, isBroken, h]

theorem isBroken_space {f : Folding} {c : Char} (hf : f.isBroken = false) (hc : isBreak c = false) :
    (f.space c).isBroken = false := by
  obtain ⟨text, blanks, breaks⟩ := f
  cases breaks <;> simp_all [isBroken, space]

theorem isSpaced_space (f : Folding) (c : Char) : (f.space c).isSpaced = true := by
  obtain ⟨text, blanks, breaks⟩ := f
  cases breaks <;> dsimp only [space] <;> split <;> rfl

theorem content_space (f : Folding) (c : Char) : (f.space c).content = f.content := by
  unfold space content
  cases f.breaks <;> dsimp only <;> split <;> rfl

theorem whole_eq_content {f : Folding} (h : f.isSpaced = false) : f.whole = f.content := by
  obtain ⟨text, blanks, breaks⟩ := f
  cases breaks <;> simp_all [isSpaced, isBroken, whole, settle, content]

theorem whole_push (f : Folding) (c : Char) : (f.push c).whole = f.whole ++ [c] := by
  rw [whole_eq_content (isSpaced_push f c), content_push]

/-- A blank is part of the text unless a line break comes before it. -/
theorem whole_space {f : Folding} {c : Char} (hf : f.isBroken = false) (hc : isBreak c = false) :
    (f.space c).whole = f.whole ++ [c] := by
  obtain ⟨text, blanks, breaks⟩ := f
  cases breaks <;> simp_all [isBroken, space, whole, settle, content]

end Folding

end PointsTo.Yaml
