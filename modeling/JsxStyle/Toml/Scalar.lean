import JsxStyle.Settings.Value
import JsxStyle.Toml.Lexical

/-!
# Numbers, dates and flags

No setting is a number or a date, so only the form of these values is checked:
where underscores may stand, how large an integer may be, which days a month
has.
-/

namespace JsxStyle

namespace Toml

open Ascii Reader

/-- Takes digits, with single underscores between them. -/
def grouped (isDigit : Byte → Bool) : Reader Text := do
  let groups ← separated (run1 isDigit) (word [underscore])
  return groups.flatten

/-- Takes an optional sign, and answers whether it is a minus. -/
def sign : Reader Bool := do
  let s ← option (byte fun b => b == 0x2B || b == hyphen)
  return s == some hyphen

/-- Takes the digits of a decimal integer: a zero alone, or digits that begin with no zero. -/
def decimalDigits : Reader Text := do
  if (← peek) = some 0x30 then
    word [0x30]
    return [0x30]
  else grouped Byte.isDigit

/-- The number that digits of a base spell. -/
def digitsValue (base : Nat) (digits : Text) : Nat :=
  digits.foldl (fun n d => n * base + (hexValue? d).getD 0) 0

/-- Takes an integer of 64 bits in decimal. -/
def decimalInteger : Reader Value := do
  let minus ← sign
  let n := digitsValue 10 (← decimalDigits)
  guard (if minus then n ≤ Nat.pow 2 63 else n < Nat.pow 2 63)
  return .other

/-- Takes an integer of 64 bits with a letter for its base. -/
def basedInteger (letter : Byte) (base : Nat) : Reader Value := do
  word [0x30, letter]
  let digits ← grouped fun b => (hexValue? b).any (· < base)
  guard (digitsValue base digits < Nat.pow 2 63)
  return .other

/-- Takes an integer. -/
def integer : Reader Value :=
  basedInteger 0x78 16 <|> basedInteger 0x6F 8 <|> basedInteger 0x62 2 <|> decimalInteger

/-- Takes an exponent: a letter, an optional sign, and digits. -/
def exponent : Reader Int := do
  let _ ← byte fun b => b == 0x65 || b == 0x45
  let minus ← sign
  let n : Int := digitsValue 10 (← grouped Byte.isDigit)
  return if minus then -n else n

/-- Takes a fraction: a point and digits. -/
def fraction : Reader Text := do
  word [dot]
  grouped Byte.isDigit

/-- Whether `m * 10 ^ e` rounds to no finite double. -/
def overflows (m : Nat) (e : Int) : Bool :=
  let limit := Nat.pow 2 1024 - Nat.pow 2 970
  if m = 0 then false
  else if 400 < e then true
  else if 0 ≤ e then limit ≤ m * Nat.pow 10 e.toNat
  else if (Nat.toDigits 10 m).length ≤ (-e).toNat then false
  else limit * Nat.pow 10 (-e).toNat ≤ m

/-- Takes a floating-point number with a fraction or an exponent.  A positive
one must be finite as a double. -/
def decimalFloat : Reader Value := do
  let minus ← sign
  let whole ← decimalDigits
  let part ← option fraction
  let power ← option exponent
  guard (part.isSome || power.isSome)
  let digits := part.getD []
  guard (minus || !overflows (digitsValue 10 (whole ++ digits)) (power.getD 0 - digits.length))
  return .other

/-- Takes an infinity or a value that is not a number. -/
def specialFloat : Reader Value := do
  let _ ← sign
  word (Text.ofString "inf") <|> word (Text.ofString "nan")
  return .other

/-- Takes a number of exactly `count` digits, from `lo` to `hi`. -/
def fixed (count lo hi : Nat) : Reader Nat := do
  let t ← get
  let digits := t.take count
  guard (digits.length = count ∧ digits.all Byte.isDigit)
  let n := digitsValue 10 digits
  guard (lo ≤ n ∧ n ≤ hi)
  set (t.drop count)
  return n

/-- The number of days of a month. -/
def daysIn (year month : Nat) : Nat :=
  if month = 2 then
    if year % 4 = 0 ∧ (year % 100 ≠ 0 ∨ year % 400 = 0) then 29 else 28
  else if month = 4 ∨ month = 6 ∨ month = 9 ∨ month = 11 then 30
  else 31

/-- Takes a day. -/
def fullDate : Reader Unit := do
  let year ← fixed 4 0 9999
  word [hyphen]
  let month ← fixed 2 1 12
  word [hyphen]
  let _ ← fixed 2 1 (daysIn year month)

/-- Takes a time of day. -/
def clock : Reader Unit := do
  let _ ← fixed 2 0 23
  word [colon]
  let _ ← fixed 2 0 59
  word [colon]
  let _ ← fixed 2 0 60
  let _ ← option (word [dot] *> run1 Byte.isDigit)

/-- Takes the distance of a time from universal time. -/
def offset : Reader Unit :=
  (do let _ ← byte fun b => b == 0x5A || b == 0x7A) <|>
    (do
      let _ ← byte fun b => b == 0x2B || b == hyphen
      let _ ← fixed 2 0 23
      word [colon]
      let _ ← fixed 2 0 59)

/-- Takes a date, a time, or both. -/
def moment : Reader Value := do
  (do
    fullDate
    let _ ← option do
      let _ ← byte fun b => b == 0x54 || b == 0x74 || b == space
      clock
      let _ ← option offset) <|> clock
  return .date

/-- Takes a flag. -/
def flag : Reader Value :=
  (do word (Text.ofString "true"); return .flag true) <|>
    (do word (Text.ofString "false"); return .flag false)

/-- Takes a value that holds no others. -/
def scalar : Reader Value :=
  (Value.text <$> string) <|> flag <|> moment <|> decimalFloat <|> specialFloat <|> integer

end Toml

end JsxStyle
