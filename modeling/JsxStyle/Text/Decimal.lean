import JsxStyle.Text.Basic

/-!
# Decimal numbers, as spelled

A numeric interpolation is folded into a class string by its spelling, so all
that is asked of it is whether it spells a floating-point number: an optional
sign, then digits with at most one point among them and at least one digit in
all, then an optional exponent; or one of the words `inf`, `infinity` and
`nan` in any mixture of cases.
-/

namespace JsxStyle

namespace Text

open Ascii

/-- The text without a leading plus or minus sign. -/
def dropSign : Text → Text
  | [] => []
  | b :: rest => if b = 0x2B ∨ b = hyphen then rest else b :: rest

/-- An ASCII letter in lower case; every other byte as it is. -/
def lowerByte (b : Byte) : Byte :=
  if 0x41 ≤ b ∧ b ≤ 0x5A then b + 0x20 else b

/-- Whether a text is nonempty and has decimal digits only. -/
def isDigits (t : Text) : Bool :=
  !t.isEmpty && t.all Byte.isDigit

/-- Whether a text is empty or an exponent: `e`, an optional sign, and digits. -/
def isExponent : Text → Bool
  | [] => true
  | b :: rest => lowerByte b == 0x65 && isDigits (dropSign rest)

/-- What follows the digits of the fractional part, and whether there were any. -/
def fraction : Text → Bool × Text
  | [] => (false, [])
  | b :: rest =>
    if b = dot then (rest.head?.any Byte.isDigit, rest.dropWhile Byte.isDigit)
    else (false, b :: rest)

/-- Whether a text spells a floating-point number. -/
def isDecimal (t : Text) : Bool :=
  let unsigned := dropSign t
  let tail := fraction (unsigned.dropWhile Byte.isDigit)
  [ofString "inf", ofString "infinity", ofString "nan"].contains (unsigned.map lowerByte) ||
    ((unsigned.head?.any Byte.isDigit || tail.1) && isExponent tail.2)

end Text

end JsxStyle
