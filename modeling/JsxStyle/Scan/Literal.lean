import JsxStyle.Text.Basic

/-!
# Names, literals and comments

Scanners look at the text from some offset on and answer how many bytes a
thing takes.  A *tail* is what is left of a thing after the bytes that open
it: the tail of a string starts behind its opening quote, the tail of a block
comment behind `/*`.  Answers about tails are counts of at least one, so a
reader that adds them to an offset behind the opening always moves on.

* `stringTail_bounds`, `commentTail_bounds`: a tail is nonempty and lies within
  the text.
-/

namespace JsxStyle

namespace Scan

open Ascii

/-- Bytes of the identifier at the front of a text, zero if there is none. -/
def identLength : Text → Nat
  | [] => 0
  | b :: rest => if b.isIdentStart then 1 + (rest.takeWhile Byte.isIdentChar).length else 0

/-- Bytes of the tag or attribute name at the front of a text, zero if there is none. -/
def nameLength : Text → Nat
  | [] => 0
  | b :: rest => if b.isIdentStart then 1 + (rest.takeWhile Byte.isNameChar).length else 0

/-- The offset at which the white space from `pos` ends, at most `stop`. -/
def skipSpace (src : Text) (pos stop : Nat) : Nat :=
  pos + ((src.slice pos stop).takeWhile Byte.isSpace).length

theorem le_skipSpace (src : Text) (pos stop : Nat) : pos ≤ skipSpace src pos stop :=
  Nat.le_add_right ..

/-- Bytes of a string literal behind its opening quote, closing quote
included.  A backslash takes the next byte with it; a line feed ends the
literal without closing it. -/
def stringTail (quote : Byte) : Text → Option Nat
  | [] => none
  | b :: rest =>
    if b = backslash then
      match rest with
      | [] => none
      | _ :: rest' => (stringTail quote rest').map (· + 2)
    else if b = newline then none
    else if b = quote then some 1
    else (stringTail quote rest).map (· + 1)

/-- Bytes of a block comment behind its `/*`, the closing `*/` included. -/
def commentTail : Text → Option Nat
  | [] => none
  | b :: rest =>
    if b = star ∧ rest.head? = some slash then some 2 else (commentTail rest).map (· + 1)

/-- Bytes up to the line feed that ends a line, or up to the end. -/
def lineTail (t : Text) : Nat :=
  (t.takeWhile (· != newline)).length

/-- What the first byte of a text opens, as far as one byte of lookahead tells. -/
inductive Lead where
  /-- A string literal delimited by `quote`. -/
  | string (quote : Byte)
  /-- A template literal. -/
  | template
  /-- A comment that ends with its line. -/
  | lineComment
  /-- A comment that ends with `*/`. -/
  | blockComment
  /-- A bracketed group that ends with `close`. -/
  | group (close : Byte)
  /-- Nothing: the byte stands for itself. -/
  | plain
deriving DecidableEq, Repr

/-- The lead of a text that begins with `b`. -/
def lead (b : Byte) (rest : Text) : Lead :=
  if b.isQuote then .string b
  else if b = tick then .template
  else if b = slash ∧ rest.head? = some slash then .lineComment
  else if b = slash ∧ rest.head? = some star then .blockComment
  else
    match b.closer? with
    | some close => .group close
    | none => .plain

/-- The offset just behind the string literal that opens at `pos`. -/
def stringEnd (src : Text) (pos : Nat) : Option Nat :=
  match src.drop pos with
  | [] => none
  | quote :: rest => (stringTail quote rest).map (pos + 1 + ·)

/-- The offset just behind the block comment that opens at `pos`. -/
def commentEnd (src : Text) (pos : Nat) : Option Nat :=
  (commentTail (src.drop (pos + 2))).map (pos + 2 + ·)

/-- The offset of the line feed that ends the line comment at `pos`, or the end of the text. -/
def lineEnd (src : Text) (pos : Nat) : Nat :=
  pos + lineTail (src.drop pos)

/-- The offset just behind the identifier at `pos`. -/
def identEnd (src : Text) (pos : Nat) : Nat :=
  pos + identLength (src.drop pos)

/-- The offset just behind the tag or attribute name at `pos`. -/
def nameEnd (src : Text) (pos : Nat) : Nat :=
  pos + nameLength (src.drop pos)

theorem le_nameEnd (src : Text) (pos : Nat) : pos ≤ nameEnd src pos :=
  Nat.le_add_right ..

/-- A string tail is nonempty and lies within the text. -/
theorem stringTail_bounds {quote : Byte} {t : Text} {n : Nat}
    (h : stringTail quote t = some n) : 0 < n ∧ n ≤ t.length := by
  fun_induction stringTail quote t generalizing n <;>
    grind [Option.map_eq_some_iff]

/-- A comment tail is nonempty and lies within the text. -/
theorem commentTail_bounds {t : Text} {n : Nat} (h : commentTail t = some n) :
    0 < n ∧ n ≤ t.length := by
  fun_induction commentTail t generalizing n <;>
    grind [Option.map_eq_some_iff, List.head?_eq_some_iff]

theorem lineTail_le_length (t : Text) : lineTail t ≤ t.length :=
  (List.takeWhile_sublist _).length_le

end Scan

end JsxStyle
