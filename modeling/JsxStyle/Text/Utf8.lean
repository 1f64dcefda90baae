import JsxStyle.Text.Basic

/-!
# Bytes that may not be text

Files and standard input hold arbitrary bytes.  `decodeStep` reads one
character off the front of a byte list, or the longest beginning of a
character when the bytes break off or go wrong; `isUtf8` asks whether every
step succeeds, and `decodeLossy` puts the replacement character for each
step that fails.

* `decodeStep_pos`: every step takes at least one byte, which is why both end.
-/

namespace JsxStyle

namespace Text

/-- One step of decoding: the character read, if any, and the bytes it took. -/
structure DecodeStep where
  char? : Option Char
  width : Nat
deriving DecidableEq, Repr

/-- How many continuation bytes a lead byte asks for, and the range of the first of them. -/
def leadShape (b : Byte) : Option (Nat × Byte × Byte) :=
  if 0xC2 ≤ b ∧ b ≤ 0xDF then some (1, 0x80, 0xBF)
  else if b = 0xE0 then some (2, 0xA0, 0xBF)
  else if b = 0xED then some (2, 0x80, 0x9F)
  else if 0xE1 ≤ b ∧ b ≤ 0xEF then some (2, 0x80, 0xBF)
  else if b = 0xF0 then some (3, 0x90, 0xBF)
  else if 0xF1 ≤ b ∧ b ≤ 0xF3 then some (3, 0x80, 0xBF)
  else if b = 0xF4 then some (3, 0x80, 0x8F)
  else none

/-- Reads `count` continuation bytes, the first within `lo` to `hi`, into `acc`. -/
def decodeTail :
    (count : Nat) → (lo hi : Byte) → (acc : Nat) → (width : Nat) → List Byte → DecodeStep
  | 0, _, _, acc, width, _ => ⟨some (Char.ofNat acc), width⟩
  | _ + 1, _, _, _, width, [] => ⟨none, width⟩
  | count + 1, lo, hi, acc, width, b :: rest =>
    if lo ≤ b ∧ b ≤ hi then
      decodeTail count 0x80 0xBF (acc * 64 + (b.toNat - 0x80)) (width + 1) rest
    else ⟨none, width⟩

/-- Reads the character that begins with byte `b`. -/
def decodeStep (b : Byte) (rest : List Byte) : DecodeStep :=
  if b < 0x80 then ⟨some (Char.ofNat b.toNat), 1⟩
  else
    match leadShape b with
    | none => ⟨none, 1⟩
    | some (count, lo, hi) =>
      let mask := if count = 1 then 0x20 else if count = 2 then 0x10 else 0x08
      decodeTail count lo hi (b.toNat % mask) 1 rest

theorem width_le_decodeTail (count : Nat) (lo hi : Byte) (acc width : Nat) (rest : List Byte) :
    width ≤ (decodeTail count lo hi acc width rest).width := by
  induction count generalizing lo hi acc width rest with
  | zero => exact Nat.le_refl _
  | succ count ih =>
    cases rest with
    | nil => exact Nat.le_refl _
    | cons b rest =>
      rw [decodeTail]
      split
      case isTrue => exact Nat.le_of_succ_le (ih ..)
      case isFalse => exact Nat.le_refl _

/-- Every step takes at least one byte. -/
theorem decodeStep_pos (b : Byte) (rest : List Byte) : 0 < (decodeStep b rest).width := by
  unfold decodeStep
  split
  · simp
  · split
    · simp
    · exact width_le_decodeTail ..

/-- Whether a byte list is the encoding of a string. -/
def isUtf8 (bytes : List Byte) : Bool :=
  match bytes with
  | [] => true
  | b :: rest =>
    (decodeStep b rest).char?.isSome && isUtf8 ((b :: rest).drop (decodeStep b rest).width)
termination_by bytes.length
decreasing_by
  have := decodeStep_pos b rest
  simp only [List.length_drop, List.length_cons]
  omega

/-- The characters of a byte list, with U+FFFD for each sequence that is no character. -/
def decodeLossy (bytes : List Byte) : List Char :=
  match bytes with
  | [] => []
  | b :: rest =>
    (decodeStep b rest).char?.getD '\uFFFD' ::
      decodeLossy ((b :: rest).drop (decodeStep b rest).width)
termination_by bytes.length
decreasing_by
  have := decodeStep_pos b rest
  simp only [List.length_drop, List.length_cons]
  omega

/-- A text as a string; ill-formed bytes become U+FFFD. -/
def toStr (t : Text) : String :=
  String.ofList (decodeLossy t)

end Text

end JsxStyle
