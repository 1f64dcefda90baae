/-!
# Bytes that carry meaning

Source text is handled as UTF-8 bytes, and everything the readers look for is
an ASCII byte: quotes, brackets, name characters, blanks.  This file names
those bytes and the four classes that scanners ask for.  A byte of a
multi-byte character is at least `0x80` and belongs to no class, so a scanner
that stops on a class never stops inside a character.
-/

namespace JsxStyle

/-- One byte of UTF-8 text. -/
abbrev Byte := UInt8

namespace Ascii

abbrev tab : Byte := 0x09
abbrev newline : Byte := 0x0A
abbrev carriageReturn : Byte := 0x0D
abbrev space : Byte := 0x20
abbrev bang : Byte := 0x21
abbrev quote : Byte := 0x22
abbrev dollar : Byte := 0x24
abbrev ampersand : Byte := 0x26
abbrev apostrophe : Byte := 0x27
abbrev openParen : Byte := 0x28
abbrev closeParen : Byte := 0x29
abbrev star : Byte := 0x2A
abbrev comma : Byte := 0x2C
abbrev hyphen : Byte := 0x2D
abbrev dot : Byte := 0x2E
abbrev slash : Byte := 0x2F
abbrev colon : Byte := 0x3A
abbrev semicolon : Byte := 0x3B
abbrev less : Byte := 0x3C
abbrev equals : Byte := 0x3D
abbrev greater : Byte := 0x3E
abbrev question : Byte := 0x3F
abbrev openBracket : Byte := 0x5B
abbrev backslash : Byte := 0x5C
abbrev closeBracket : Byte := 0x5D
abbrev underscore : Byte := 0x5F
abbrev tick : Byte := 0x60
abbrev openBrace : Byte := 0x7B
abbrev bar : Byte := 0x7C
abbrev closeBrace : Byte := 0x7D

end Ascii

namespace Byte

open Ascii

/-- An ASCII letter of either case. -/
def isLetter (b : Byte) : Bool :=
  (0x41 ≤ b && b ≤ 0x5A) || (0x61 ≤ b && b ≤ 0x7A)

/-- An ASCII decimal digit. -/
def isDigit (b : Byte) : Bool :=
  0x30 ≤ b && b ≤ 0x39

/-- A byte that can begin an identifier. -/
def isIdentStart (b : Byte) : Bool :=
  b.isLetter || b == underscore || b == dollar

/-- A byte that can stand inside an identifier. -/
def isIdentChar (b : Byte) : Bool :=
  b.isIdentStart || b.isDigit

/-- A byte that can stand inside a tag or attribute name (`Foo.Bar`, `data-id`, `xlink:href`). -/
def isNameChar (b : Byte) : Bool :=
  b.isIdentChar || b == hyphen || b == dot || b == colon

/-- ASCII white space between the parts of a tag or an expression: tab, line
feed, form feed, carriage return and space, but no vertical tab. -/
def isSpace (b : Byte) : Bool :=
  b == 0x20 || b == 0x09 || b == 0x0A || b == 0x0C || b == 0x0D

/-- A quotation mark that delimits a string literal. -/
def isQuote (b : Byte) : Bool :=
  b == quote || b == apostrophe

/-- A byte that continues a multi-byte character. -/
def isContinuation (b : Byte) : Bool :=
  0x80 ≤ b && b ≤ 0xBF

/-- The bracket that closes the group an opening bracket opens. -/
def closer? (b : Byte) : Option Byte :=
  if b = openParen then some closeParen
  else if b = openBracket then some closeBracket
  else if b = openBrace then some closeBrace
  else none

/-- A closing bracket of any of the three kinds. -/
def isCloser (b : Byte) : Bool :=
  b == closeParen || b == closeBracket || b == closeBrace

/-- Every byte that can begin an identifier can also stand inside one. -/
theorem isIdentChar_of_isIdentStart {b : Byte} (h : b.isIdentStart = true) :
    b.isIdentChar = true := by
  simp [isIdentChar, h]

end Byte

end JsxStyle
