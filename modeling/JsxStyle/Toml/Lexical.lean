import JsxStyle.Toml.Reader

/-!
# Blanks, strings and keys

The small parts of a TOML document.  Blanks are spaces and tabs, lines end with
a line feed that a carriage return may precede, and control characters other
than tab stand nowhere.  Strings are basic, with escapes, or literal, without,
and each may span lines between tripled quotes.
-/

namespace JsxStyle

namespace Toml

open Ascii Reader

/-- A space or a tab. -/
def isBlank (b : Byte) : Bool :=
  b == space || b == tab

/-- A byte that may stand in a comment or a string: no control character but tab. -/
def isVisible (b : Byte) : Bool :=
  b == tab || (0x20 ≤ b && b != 0x7F)

/-- Takes blanks. -/
def blanks : Reader Unit := do
  let _ ← run isBlank

/-- Takes a line break. -/
def lineBreak : Reader Unit :=
  word [newline] <|> word [carriageReturn, newline]

/-- Takes a comment, up to the line break that ends it. -/
def comment : Reader Unit := do
  word [0x23]
  let _ ← run isVisible

/-- Takes the end of a line: blanks, a comment, and a line break or the end of the document. -/
def lineEnd : Reader Unit := do
  blanks
  let _ ← option comment
  if ← atEnd then pure () else lineBreak

/-- Takes blanks, comments and line breaks, as between the items of a list. -/
def filler : Reader Unit := do
  let _ ← many ((do let _ ← run1 isBlank) <|> (comment *> lineBreak) <|> lineBreak)

/-- The value of a hexadecimal digit. -/
def hexValue? (b : Byte) : Option Nat :=
  if b.isDigit then some (b.toNat - 0x30)
  else if 0x41 ≤ b ∧ b ≤ 0x46 then some (b.toNat - 0x41 + 10)
  else if 0x61 ≤ b ∧ b ≤ 0x66 then some (b.toNat - 0x61 + 10)
  else none

/-- Takes `count` hexadecimal digits as the code of a character. -/
def hexChar (count : Nat) : Reader Text := do
  let t ← get
  let digits ← ((t.take count).mapM hexValue? : Option (List Nat))
  let code := digits.foldl (fun n d => n * 16 + d) 0
  guard (digits.length = count ∧ code.isValidChar)
  set (t.drop count)
  return Text.ofChar (Char.ofNat code)

/-- Takes the rest of an escape behind its backslash. -/
def escapeTail : Reader Text := do
  let b ← byte fun _ => true
  if b = 0x62 then return [0x08]
  else if b = 0x74 then return [tab]
  else if b = 0x6E then return [newline]
  else if b = 0x66 then return [0x0C]
  else if b = 0x72 then return [carriageReturn]
  else if b = quote then return [quote]
  else if b = backslash then return [backslash]
  else if b = 0x75 then hexChar 4
  else if b = 0x55 then hexChar 8
  else failure

/-- Takes an escape. -/
def escape : Reader Text :=
  word [backslash] *> escapeTail

/-- Takes a backslash at the end of a line, and all blanks and line breaks behind it. -/
def continuation : Reader Text := do
  word [backslash]
  blanks
  lineBreak
  let _ ← many ((do let _ ← run1 isBlank) <|> lineBreak)
  return []

/-- Takes a line break inside a string, which counts as a line feed. -/
def innerBreak : Reader Text := do
  lineBreak
  return [newline]

/-- Takes one or two quotes that others do not follow, inside a string of tripled quotes. -/
def innerQuotes (mark : Byte) : Reader Text := do
  let t ← get
  let marks := t.takeWhile (· == mark)
  guard (marks.length = 1 ∨ marks.length = 2)
  set (t.drop marks.length)
  return marks

/-- Takes the tripled quotes that end a string; up to two more in front of them
belong to the string. -/
def closingQuotes (mark : Byte) : Reader Text := do
  let marks := ((← get).takeWhile (· == mark)).length
  let extra := List.replicate (min (marks - 3) 2) mark
  word (extra ++ [mark, mark, mark])
  return extra

/-- Takes a string between tripled `mark`s; `inner` takes what stands in it.  A
line break right behind the opening does not count. -/
def tripled (mark : Byte) (inner : Reader Text) : Reader Text := do
  word [mark, mark, mark]
  let _ ← option lineBreak
  let parts ← many (inner <|> innerQuotes mark)
  let extra ← closingQuotes mark
  return parts.flatten ++ extra

/-- Takes a string between single `mark`s; `inner` takes what stands in it. -/
def single (mark : Byte) (inner : Reader Text) : Reader Text := do
  word [mark]
  let parts ← many inner
  word [mark]
  return parts.flatten

/-- Takes text of a basic string, which has neither quotes nor backslashes. -/
def basicText : Reader Text :=
  run1 fun b => isVisible b && b != quote && b != backslash

/-- Takes text of a literal string, which has no apostrophes. -/
def literalText : Reader Text :=
  run1 fun b => isVisible b && b != apostrophe

/-- Takes a basic string on one line. -/
def basicString : Reader Text :=
  single quote (basicText <|> escape)

/-- Takes a literal string on one line. -/
def literalString : Reader Text :=
  single apostrophe literalText

/-- Takes a string of any kind. -/
def string : Reader Text :=
  tripled quote (basicText <|> continuation <|> escape <|> innerBreak) <|> basicString <|>
    tripled apostrophe (literalText <|> innerBreak) <|> literalString

/-- Takes one name of a key. -/
def simpleKey : Reader Text :=
  basicString <|> literalString <|>
    run1 fun b => b.isLetter || b.isDigit || b == hyphen || b == underscore

/-- How deep keys and values may nest. -/
def depthLimit : Nat := 80

/-- Takes a key: names with dots in between, and blanks around each. -/
def key : Reader (List Text) := do
  let path ← separated (blanks *> simpleKey <* blanks) (word [dot])
  guard (path.length < depthLimit)
  return path

end Toml

end JsxStyle
