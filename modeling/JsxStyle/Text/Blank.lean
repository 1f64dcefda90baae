import JsxStyle.Text.Basic

/-!
# White space in any script

Trimming and word splitting follow the Unicode property White_Space, whose
members are one, two or three bytes long in UTF-8.  `leadingBlank` is the table
of that property; the rest of the file cuts texts by it.  None of the member
characters begins with a continuation byte, so looking at every byte offset in
turn finds the same characters as looking at every character.

* `length_trimStart_le`, `length_untilBlank_snd_le`: a cut never grows a text,
  which is why `words` ends;
* `collapse` joins the words of a text by single spaces.
-/

namespace JsxStyle

namespace Text

open Ascii

/-- The white-space characters of one byte: tab to carriage return, and space. -/
def isBlankByte (a : Byte) : Bool :=
  (0x09 ≤ a && a ≤ 0x0D) || a == 0x20

/-- The white-space characters of two bytes: next line and no-break space. -/
def isBlankPair (a b : Byte) : Bool :=
  a == 0xC2 && (b == 0x85 || b == 0xA0)

/-- The white-space characters of three bytes: the Ogham space mark, the
spaces and separators of the general punctuation block, and the ideographic
space. -/
def isBlankTriple (a b c : Byte) : Bool :=
  (a == 0xE1 && b == 0x9A && c == 0x80) ||
  (a == 0xE2 && b == 0x80 &&
    ((0x80 ≤ c && c ≤ 0x8A) || c == 0xA8 || c == 0xA9 || c == 0xAF)) ||
  (a == 0xE2 && b == 0x81 && c == 0x9F) ||
  (a == 0xE3 && b == 0x80 && c == 0x80)

/-- How many bytes the white-space character at the front of a text takes,
zero if the text does not begin with one. -/
def leadingBlank : Text → Nat
  | [] => 0
  | [a] => if isBlankByte a then 1 else 0
  | [a, b] => if isBlankByte a then 1 else if isBlankPair a b then 2 else 0
  | a :: b :: c :: _ =>
    if isBlankByte a then 1
    else if isBlankPair a b then 2
    else if isBlankTriple a b c then 3
    else 0

theorem leadingBlank_le_length (t : Text) : leadingBlank t ≤ t.length := by
  fun_cases leadingBlank t <;> simp

/-- White space in front is a character of one byte, of two or of three. -/
theorem leadingBlank_cases (t : Text) :
    leadingBlank t = 0 ∨
      (∃ a rest, t = a :: rest ∧ isBlankByte a = true ∧ leadingBlank t = 1) ∨
      (∃ a b rest, t = a :: b :: rest ∧ isBlankPair a b = true ∧ leadingBlank t = 2) ∨
      ∃ a b c rest, t = a :: b :: c :: rest ∧ isBlankTriple a b c = true ∧ leadingBlank t = 3 := by
  fun_cases leadingBlank t <;> grind

/-- A text without its leading white space. -/
def trimStart (t : Text) : Text :=
  if leadingBlank t = 0 then t else trimStart (t.drop (leadingBlank t))
termination_by t.length
decreasing_by
  have := leadingBlank_le_length t
  rw [List.length_drop]
  omega

/-- Whether a text is white space throughout. -/
def isBlank (t : Text) : Bool :=
  (trimStart t).isEmpty

/-- A text without its trailing white space. -/
def trimEnd : Text → Text
  | [] => []
  | b :: rest => if isBlank (b :: rest) then [] else b :: trimEnd rest

/-- A text without the white space at its two ends. -/
def trim (t : Text) : Text :=
  trimEnd (trimStart t)

/-- What stands before the first white space of a text, and the rest. -/
def untilBlank : Text → Text × Text
  | [] => ([], [])
  | b :: rest =>
    if leadingBlank (b :: rest) = 0 then (b :: (untilBlank rest).1, (untilBlank rest).2)
    else ([], b :: rest)

/-- Where no white space is in front, nothing is trimmed. -/
theorem trimStart_of_visible {t : Text} (h : leadingBlank t = 0) : trimStart t = t := by
  rw [trimStart, if_pos h]

/-- White space in front is trimmed. -/
theorem trimStart_of_blank {t : Text} (h : leadingBlank t ≠ 0) :
    trimStart t = trimStart (t.drop (leadingBlank t)) := by
  rw [trimStart, if_neg h]

/-- Induction along the white space in front of a text. -/
@[elab_as_elim]
theorem blank_induction {motive : Text → Prop}
    (visible : ∀ t, leadingBlank t = 0 → motive t)
    (blank : ∀ t, leadingBlank t ≠ 0 → motive (t.drop (leadingBlank t)) → motive t) (t : Text) :
    motive t := by
  by_cases h : leadingBlank t = 0
  · exact visible t h
  · exact blank t h (blank_induction visible blank (t.drop (leadingBlank t)))
termination_by t.length
decreasing_by
  have := leadingBlank_le_length t
  rw [List.length_drop]
  omega

theorem length_trimStart_le (t : Text) : (trimStart t).length ≤ t.length := by
  induction t using blank_induction with
  | visible t h => exact Nat.le_of_eq (congrArg List.length (trimStart_of_visible h))
  | blank t h ih =>
    rw [trimStart_of_blank h]
    rw [List.length_drop] at ih
    omega

theorem length_untilBlank_snd_le (t : Text) : (untilBlank t).2.length ≤ t.length := by
  induction t with
  | nil => simp [untilBlank]
  | cons b rest ih =>
    rw [untilBlank]
    split
    · simp only [List.length_cons]; omega
    · simp

/-- The maximal runs of characters that are not white space, in order. -/
def words (t : Text) : List Text :=
  match _h : trimStart t with
  | [] => []
  | b :: rest => (b :: (untilBlank rest).1) :: words (untilBlank rest).2
termination_by t.length
decreasing_by
  have h₁ := length_trimStart_le t
  have h₂ := length_untilBlank_snd_le rest
  rw [_h, List.length_cons] at h₁
  omega

/-- The words of a text with one space between neighbours. -/
def collapse (t : Text) : Text :=
  join [space] (words t)

end Text

end JsxStyle
