import JsxStyle.Text.Basic

/-!
# Backslash escapes

String literals and template chunks are written with backslash escapes.
`unescape` gives the value that such a text stands for, and `quoted` writes a
value back as a literal.  Line feeds, tabs, carriage returns and NUL have a
letter of their own when read; when written, only the delimiter and the
backslash itself are escaped.
-/

namespace JsxStyle

namespace Text

open Ascii

/-- What the byte after a backslash stands for: a control character, nothing
for a line continuation, or itself. -/
def escapeValue (c : Byte) : Text :=
  if c = 0x6E then [newline]
  else if c = 0x74 then [tab]
  else if c = 0x72 then [carriageReturn]
  else if c = 0x30 then [0]
  else if c = newline then []
  else [c]

/-- Induction along the escapes of a text: a backslash takes the byte behind it
along, unless it is the last byte, and any other byte stands for itself. -/
@[elab_as_elim]
theorem escape_induction {motive : Text → Prop} (nil : motive []) (lone : motive [backslash])
    (escape : ∀ c rest, motive rest → motive (backslash :: c :: rest))
    (byte : ∀ b rest, b ≠ backslash → motive rest → motive (b :: rest)) : ∀ t, motive t
  | [] => nil
  | [b] => by
    by_cases hb : b = backslash
    · exact hb ▸ lone
    · exact byte b [] hb nil
  | b :: c :: rest => by
    by_cases hb : b = backslash
    · exact hb ▸ escape c rest (escape_induction nil lone escape byte rest)
    · exact byte b (c :: rest) hb (escape_induction nil lone escape byte (c :: rest))

/-- The value of an escaped text.  A backslash at the very end stands for itself. -/
def unescape : Text → Text
  | [] => []
  | [b] => [b]
  | b :: c :: rest =>
    if b = backslash then escapeValue c ++ unescape rest else b :: unescape (c :: rest)

/-- A value with a backslash before every backslash and every `delimiter`. -/
def escape (delimiter : Char) : Text → Text
  | [] => []
  | b :: rest =>
    if b = backslash ∨ (ofChar delimiter).isPrefixOf (b :: rest) then
      backslash :: b :: escape delimiter rest
    else b :: escape delimiter rest

/-- A value as a string literal between two copies of `delimiter`. -/
def quoted (delimiter : Char) (value : Text) : Text :=
  ofChar delimiter ++ escape delimiter value ++ ofChar delimiter

end Text

end JsxStyle
