import JsxStyle.Text.Blank

/-!
# What the code before an offset tells

A `<` may be a comparison, a type argument or the beginning of markup, and a
statement may only begin where a line does.  Both questions are answered by
looking back from the offset.
-/

namespace JsxStyle

namespace Scan

open Ascii

/-- The keywords after which an expression begins. -/
def expressionKeywords : List Text :=
  ["return", "typeof", "void", "await", "yield", "case", "in", "of", "new", "delete", "throw",
    "default", "do", "else"].map Text.ofString

/-- The run of identifier characters that ends a text. -/
def lastWord (code : Text) : Text :=
  (code.reverse.takeWhile Byte.isIdentChar).reverse

/-- Whether a text ends with a keyword after which an expression begins. -/
def endsWithKeyword (code : Text) : Bool :=
  expressionKeywords.contains (lastWord code)

/-- The bytes after which a `<` can only begin markup. -/
def expressionOpeners : List Byte :=
  [openParen, equals, comma, question, colon, ampersand, bar, openBracket, openBrace,
    closeBrace, semicolon, greater, bang]

/-- Whether a `<` at `pos` may begin markup: at the very start, behind an
operator or bracket that expects an expression, or behind such a keyword. -/
def markupMayStart (src : Text) (pos : Nat) : Bool :=
  let before := Text.trimEnd (src.take pos)
  match before.getLast? with
  | none => true
  | some last => expressionOpeners.contains last || (last.isIdentChar && endsWithKeyword before)

/-- Whether only white space stands between the previous line feed and `pos`. -/
def atLineStart (src : Text) (pos : Nat) : Bool :=
  Text.isBlank ((src.take pos).reverse.takeWhile (· != newline)).reverse

end Scan

end JsxStyle
