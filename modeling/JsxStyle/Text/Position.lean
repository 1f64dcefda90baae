import JsxStyle.Text.Basic

/-!
# Lines and columns

A position names a place in a text for a human reader.  Lines end at a line
feed; columns count characters, so a byte that continues a character does not
count.  Both start at one.  The position of an offset is what reading the
bytes before it, one at a time, leads to.

* `positionAt_zero`: every text begins at line 1, column 1;
* `positionAt_of_length_le`: offsets past the end share the end's position.
-/

namespace JsxStyle

/-- A line and a column, both counted from one. -/
structure Position where
  line : Nat := 1
  column : Nat := 1
deriving DecidableEq, Repr

namespace Position

/-- The position after one more byte has been read. -/
def advance (p : Position) (b : Byte) : Position :=
  if b = Ascii.newline then ⟨p.line + 1, 1⟩
  else if b.isContinuation then p
  else ⟨p.line, p.column + 1⟩

/-- The two numbers with a colon between them. -/
def render (p : Position) : Text :=
  Text.ofNat p.line ++ [Ascii.colon] ++ Text.ofNat p.column

end Position

namespace Text

/-- The position of a byte offset; offsets past the end count as the end. -/
def positionAt (t : Text) (offset : Nat) : Position :=
  (t.take offset).foldl Position.advance {}

@[simp] theorem positionAt_zero (t : Text) : t.positionAt 0 = {} := by
  simp [positionAt]

theorem positionAt_of_length_le {t : Text} {offset : Nat} (h : t.length ≤ offset) :
    t.positionAt offset = t.positionAt t.length := by
  simp [positionAt, List.take_of_length_le h]

/-- Reading on from an offset continues from its position. -/
theorem positionAt_append (s t : Text) (k : Nat) :
    (s ++ t).positionAt (s.length + k) =
      (t.take k).foldl Position.advance (s.positionAt s.length) := by
  simp [positionAt, List.take_append, List.foldl_append, List.take_of_length_le]

end Text

end JsxStyle
