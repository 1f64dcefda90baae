import JsxStyle.Proofs.Tiles
import JsxStyle.Text.Utf8

/-!
# Seams

Scanners step from byte to byte, also through characters of several bytes, and a
backslash takes along whatever byte is next.  They stop at ASCII bytes all the
same, and in a text both ends of an ASCII byte lie between characters: no byte
that continues a character follows one that is a character of its own.  A seam is
an offset of which that much is known.

* `Text.not_isContinuation_succ`: the fact about texts;
* `Seam.of_isAscii`, `Seam.succ_of_isAscii`: the ends of an ASCII byte;
* `Scan.getElem?_closeTail`, `Scan.seam_templateTail`, `Scan.seam_segmentsFrom`:
  where the scanners stop, and in which order.
-/

namespace JsxStyle

open Ascii

/-- A byte that is a character of its own. -/
def Byte.isAscii (b : Byte) : Bool :=
  b < 0x80

namespace Byte

/-- A byte is ASCII when its value is below 128. -/
theorem isAscii_iff {b : Byte} : b.isAscii = true ↔ b.toNat < 128 := by
  rw [isAscii, decide_eq_true_eq, UInt8.lt_iff_toNat_lt]
  rfl

/-- A byte continues a character when its value is from 128 to 191. -/
theorem isContinuation_iff {b : Byte} :
    b.isContinuation = true ↔ 128 ≤ b.toNat ∧ b.toNat ≤ 191 := by
  rw [isContinuation, Bool.and_eq_true, decide_eq_true_eq, decide_eq_true_eq,
    UInt8.le_iff_toNat_le, UInt8.le_iff_toNat_le]
  rfl

/-- No ASCII byte continues a character. -/
theorem not_isContinuation_of_isAscii {b : Byte} (h : b.isAscii = true) :
    b.isContinuation = false := by
  rw [isAscii_iff] at h
  rw [Bool.eq_false_iff, ne_eq, isContinuation_iff]
  omega

/-- The bytes of tag and attribute names are ASCII. -/
theorem isAscii_of_isNameChar {b : Byte} (h : b.isNameChar = true) : b.isAscii = true := by
  rw [isAscii_iff]
  simp only [isNameChar, isIdentChar, isIdentStart, isLetter, isDigit, Bool.or_eq_true,
    Bool.and_eq_true, decide_eq_true_eq, beq_iff_eq, UInt8.le_iff_toNat_le, ← UInt8.toNat_inj,
    underscore, dollar, hyphen, dot, colon, UInt8.reduceToNat] at h
  omega

/-- The bytes of identifiers are ASCII. -/
theorem isAscii_of_isIdentChar {b : Byte} (h : b.isIdentChar = true) : b.isAscii = true :=
  isAscii_of_isNameChar (by simp [isNameChar, h])

/-- White space is ASCII. -/
theorem isAscii_of_isSpace {b : Byte} (h : b.isSpace = true) : b.isAscii = true := by
  simp only [isSpace, Bool.or_eq_true, beq_iff_eq] at h
  rcases h with (((rfl | rfl) | rfl) | rfl) | rfl <;> rfl

/-- Closing brackets are ASCII. -/
theorem isAscii_of_isCloser {b : Byte} (h : b.isCloser = true) : b.isAscii = true := by
  simp only [isCloser, Bool.or_eq_true, beq_iff_eq] at h
  rcases h with (rfl | rfl) | rfl <;> rfl

/-- Quotes are ASCII. -/
theorem isAscii_of_isQuote {b : Byte} (h : b.isQuote = true) : b.isAscii = true := by
  simp only [isQuote, Bool.or_eq_true, beq_iff_eq] at h
  rcases h with rfl | rfl <;> rfl

end Byte

namespace Text

/-- The continuation bytes that a character asks for are read whatever stands behind them. -/
theorem decodeTail_reads {count : Nat} {lo hi : Byte} {acc width : Nat} {rest : List Byte}
    (hlo : 128 ≤ lo.toNat) (hhi : hi.toNat ≤ 191)
    (h : (decodeTail count lo hi acc width rest).char?.isSome = true) :
    ∃ tail post char, rest = tail ++ post ∧ tail.length = count ∧
      (∀ c ∈ tail, c.isContinuation = true) ∧
      ∀ post', decodeTail count lo hi acc width (tail ++ post') = ⟨some char, width + count⟩ := by
  induction count generalizing lo hi acc width rest with
  | zero =>
    exact ⟨[], rest, Char.ofNat acc, rfl, rfl, by simp, fun post' => by rw [decodeTail]; rfl⟩
  | succ count ih =>
    cases rest with
    | nil => exact absurd h (by simp [decodeTail])
    | cons b rest =>
      rw [decodeTail] at h
      split at h
      case isTrue hb =>
        obtain ⟨tail, post, char, rfl, rfl, hall, hreads⟩ := ih (by decide) (by decide) h
        refine ⟨b :: tail, post, char, rfl, rfl, List.forall_mem_cons.mpr ⟨?_, hall⟩,
          fun post' => ?_⟩
        · have hle := UInt8.le_iff_toNat_le.mp hb.1
          have hge := UInt8.le_iff_toNat_le.mp hb.2
          rw [Byte.isContinuation_iff]
          omega
        · rw [List.cons_append, decodeTail, if_pos hb, hreads, Nat.add_right_comm, Nat.add_assoc]
      case isFalse => exact absurd h Bool.false_ne_true

/-- A byte that leads several is not one of those that follow, and the first that follows is. -/
theorem leadShape_bounds {b : Byte} {count : Nat} {lo hi : Byte}
    (h : leadShape b = some (count, lo, hi)) :
    b.isContinuation = false ∧ 128 ≤ lo.toNat ∧ hi.toNat ≤ 191 := by
  rw [Bool.eq_false_iff, ne_eq, Byte.isContinuation_iff]
  simp only [leadShape, UInt8.le_iff_toNat_le, ← UInt8.toNat_inj, UInt8.reduceToNat] at h
  have hlo : lo = 0x80 ∨ lo = 0xA0 ∨ lo = 0x90 := by grind
  have hhi : hi = 0xBF ∨ hi = 0x9F ∨ hi = 0x8F := by grind
  refine ⟨by grind, ?_, ?_⟩
  · rcases hlo with rfl | rfl | rfl <;> decide
  · rcases hhi with rfl | rfl | rfl <;> decide

/-- What one step of decoding reads: a byte that continues no character, and bytes that do,
none of them behind an ASCII byte.  It reads them whatever stands behind them. -/
theorem decodeStep_reads {b : Byte} {rest : List Byte}
    (h : (decodeStep b rest).char?.isSome = true) :
    b.isContinuation = false ∧ ∃ tail post char, rest = tail ++ post ∧
      (∀ c ∈ tail, c.isContinuation = true) ∧ (b.isAscii = true → tail = []) ∧
      ∀ post', decodeStep b (tail ++ post') = ⟨some char, tail.length + 1⟩ := by
  by_cases hb : b.isAscii = true
  · have hlt : b < 0x80 := of_decide_eq_true hb
    refine ⟨Byte.not_isContinuation_of_isAscii hb, [], rest, Char.ofNat b.toNat, rfl, by simp,
      fun _ => rfl, fun post' => ?_⟩
    rw [decodeStep, if_pos hlt]
    rfl
  · have hlt : ¬b < 0x80 := fun hlt => hb (decide_eq_true hlt)
    unfold decodeStep at h ⊢
    rw [if_neg hlt] at h
    cases hshape : leadShape b with
    | none => simp [hshape] at h
    | some shape =>
      obtain ⟨count, lo, hi⟩ := shape
      obtain ⟨hcontinuation, hlo, hhi⟩ := leadShape_bounds hshape
      rw [hshape] at h
      obtain ⟨tail, post, char, rfl, rfl, hall, hreads⟩ := decodeTail_reads hlo hhi h
      refine ⟨hcontinuation, tail, post, char, rfl, hall, fun h => absurd h hb, fun post' => ?_⟩
      rw [if_neg hlt]
      exact (hreads post').trans (by rw [Nat.add_comm])

/-- A text that is not empty is one character and a text behind it. -/
theorem exists_of_isUtf8_cons {b : Byte} {rest : List Byte} (h : isUtf8 (b :: rest) = true) :
    b.isContinuation = false ∧ ∃ tail post, rest = tail ++ post ∧ isUtf8 post = true ∧
      (∀ c ∈ tail, c.isContinuation = true) ∧ (b.isAscii = true → tail = []) ∧
      ∃ char, ∀ post', decodeStep b (tail ++ post') = ⟨some char, tail.length + 1⟩ := by
  rw [isUtf8, Bool.and_eq_true] at h
  obtain ⟨hstep, hpost⟩ := h
  obtain ⟨hb, tail, post, char, rfl, hall, hascii, hreads⟩ := decodeStep_reads hstep
  refine ⟨hb, tail, post, rfl, ?_, hall, hascii, char, hreads⟩
  rwa [hreads, List.drop_succ_cons, List.drop_left] at hpost

/-- Well-formed text does not begin inside a character. -/
theorem not_isContinuation_head {b : Byte} {rest : List Byte} (h : isUtf8 (b :: rest) = true) :
    b.isContinuation = false :=
  (exists_of_isUtf8_cons h).1

/-- In a text, no continuation byte follows an ASCII byte. -/
theorem not_isContinuation_succ {t : List Byte} (ht : isUtf8 t = true) {i : Nat} {b c : Byte}
    (hb : t[i]? = some b) (hascii : b.isAscii = true) (hc : t[i + 1]? = some c) :
    c.isContinuation = false := by
  induction hlen : t.length using Nat.strongRecOn generalizing t i with
  | ind n ih =>
    cases t with
    | nil => simp at hb
    | cons first rest =>
      obtain ⟨-, tail, post, rfl, hpost, hall, hnone, -⟩ := exists_of_isUtf8_cons ht
      rw [List.length_cons, List.length_append] at hlen
      rcases Nat.lt_or_ge i (tail.length + 1) with hi | hi
      · cases i with
        | zero =>
          -- The ASCII byte is the whole first character.
          obtain rfl : first = b := by simpa using hb
          rw [hnone hascii] at hc
          cases post with
          | nil => simp at hc
          | cons d post =>
            obtain rfl : d = c := by simpa using hc
            exact not_isContinuation_head hpost
        | succ i =>
          rw [List.getElem?_cons_succ, List.getElem?_append_left (by omega)] at hb
          have := hall b (List.mem_of_getElem? hb)
          rw [Byte.not_isContinuation_of_isAscii hascii] at this
          exact absurd this (by simp)
      · obtain ⟨j, rfl⟩ : ∃ j, i = tail.length + j + 1 := ⟨i - tail.length - 1, by omega⟩
        rw [List.getElem?_cons_succ, List.getElem?_append_right (by omega),
          Nat.add_sub_cancel_left] at hb
        rw [List.getElem?_cons_succ, List.getElem?_append_right (by omega),
          show tail.length + j + 1 - tail.length = j + 1 by omega] at hc
        exact ih post.length (by omega) hpost hb hc rfl

/-- Whether an offset lies between two characters of a text, or at one of its ends. -/
def isBoundary (t : Text) (i : Nat) : Bool :=
  i == 0 || i == t.length || t[i]?.any (!·.isContinuation)

end Text

/-- An offset within the source that lies between two characters, if the source is text. -/
structure Seam (src : Text) (i : Nat) : Prop where
  le : i ≤ src.length
  boundary : Text.isUtf8 src = true → Text.isBoundary src i = true

namespace Seam

variable {src : Text} {i : Nat}

theorem zero (src : Text) : Seam src 0 :=
  ⟨Nat.zero_le _, fun _ => rfl⟩

theorem length (src : Text) : Seam src src.length :=
  ⟨Nat.le_refl _, fun _ => by simp [Text.isBoundary]⟩

/-- An ASCII byte begins at a seam. -/
theorem of_isAscii {b : Byte} (hb : src[i]? = some b) (hascii : b.isAscii = true) :
    Seam src i := by
  refine ⟨Nat.le_of_lt (List.getElem?_eq_some_iff.mp hb).1, fun _ => ?_⟩
  simp [Text.isBoundary, hb, Byte.not_isContinuation_of_isAscii hascii]

/-- An ASCII byte ends at a seam. -/
theorem succ_of_isAscii {b : Byte} (hb : src[i]? = some b) (hascii : b.isAscii = true) :
    Seam src (i + 1) := by
  have hlt := (List.getElem?_eq_some_iff.mp hb).1
  refine ⟨hlt, fun hutf8 => ?_⟩
  rcases Nat.eq_or_lt_of_le hlt with hend | hin
  · rw [Nat.succ_eq_add_one] at hend
    simp [Text.isBoundary, hend]
  · have hnext : src[i + 1]? = some src[i + 1] := List.getElem?_eq_getElem hin
    simp [Text.isBoundary, hnext, Text.not_isContinuation_succ hutf8 hb hascii hnext]

/-- Behind a run of ASCII bytes that begins at a seam there is a seam. -/
theorem add_length {u : Text} (h : Seam src i) (hu : u <+: src.drop i)
    (hascii : ∀ b ∈ u, b.isAscii = true) : Seam src (i + u.length) := by
  rcases List.eq_nil_or_concat u with rfl | ⟨init, last, rfl⟩
  · exact h
  · obtain ⟨rest, hrest⟩ := hu
    have hlast : src[i + init.length]? = some last := by
      rw [← List.getElem?_drop, ← hrest]
      simp
    rw [List.length_concat, ← Nat.add_assoc]
    exact succ_of_isAscii hlast (hascii last (by simp))

/-- Behind a run of ASCII bytes that starts at a seam there is a seam. -/
theorem add_takeWhile {t : Text} {p : Byte → Bool} (h : Seam src i) (ht : t <+: src.drop i)
    (hp : ∀ b, p b = true → b.isAscii = true) : Seam src (i + (t.takeWhile p).length) :=
  h.add_length ((List.takeWhile_prefix p).trans ht) fun b hb =>
    hp b (List.all_eq_true.mp List.all_takeWhile b hb)

/-- White space skipped from a seam ends at a seam. -/
theorem skipSpace {stop : Nat} (h : Seam src i) : Seam src (Scan.skipSpace src i stop) :=
  h.add_takeWhile (List.take_prefix ..) fun _ => Byte.isAscii_of_isSpace

end Seam

namespace Scan

/-- A string literal ends with its quote. -/
theorem getElem?_stringTail {quote : Byte} {t : Text} {n : Nat}
    (h : stringTail quote t = some n) : ∃ m, n = m + 1 ∧ t[m]? = some quote := by
  replace h := stringTrace h
  induction h with
  | closing => exact ⟨0, rfl, rfl⟩
  | escape _ ih =>
    obtain ⟨m, rfl, hm⟩ := ih
    exact ⟨m + 2, rfl, hm⟩
  | byte _ _ _ _ ih =>
    obtain ⟨m, rfl, hm⟩ := ih
    exact ⟨m + 1, rfl, hm⟩

/-- A construct ends with the byte that closes the outermost frame. -/
theorem getElem?_closeTail {top last : Frame} {below : List Frame} {t : Text} {n : Nat}
    (hlast : (top :: below).getLast? = some last) (h : closeTail top below t = some n) :
    ∃ m, n = m + 1 ∧ t[m]? = some last.closing := by
  -- The rest after a step ends with that byte, and so does the whole.
  have hstep {b : Byte} {rest : Text} (k : Nat) {n : Nat}
      (ih : ∃ m, n = m + 1 ∧ (rest.drop k)[m]? = some last.closing) :
      ∃ m, n + (k + 1) = m + 1 ∧ (b :: rest)[m]? = some last.closing := by
    obtain ⟨m, rfl, hm⟩ := ih
    refine ⟨m + k + 1, by omega, ?_⟩
    rwa [List.getElem?_cons_succ, Nat.add_comm, ← List.getElem?_drop]
  replace h := closeTrace h
  induction h with
  | last =>
    obtain rfl := Option.some.inj hlast
    exact ⟨0, rfl, rfl⟩
  | next _ ih => exact hstep 0 (ih (by simpa using hlast))
  | escape _ ih => exact hstep 1 (ih hlast)
  | hole _ ih => exact hstep 1 (ih (by rwa [List.getLast?_cons_cons]))
  | byte _ _ _ _ ih => exact hstep 0 (ih hlast)
  | string _ _ _ ih => exact hstep _ (ih hlast)
  | template _ ih => exact hstep 0 (ih (by rwa [List.getLast?_cons_cons]))
  | lineComment _ _ ih => exact hstep _ (ih hlast)
  | @blockComment _ _ _ k _ _ _ ih => exact hstep (k + 1) (ih hlast)
  | group _ _ ih => exact hstep 0 (ih (by rwa [List.getLast?_cons_cons]))
  | plain _ _ _ ih => exact hstep 0 (ih hlast)

end Scan

/-- Things that have places which lie one behind the other from `lo` to `hi`. -/
def InOrder {α : Type} (span : α → Option Span) (lo hi : Nat) : List α → Prop
  | [] => lo ≤ hi
  | a :: rest => ∃ s, span a = some s ∧ lo ≤ s.lo ∧ s.lo ≤ s.hi ∧ InOrder span s.hi hi rest

namespace InOrder

variable {α : Type} {span : α → Option Span} {lo lo' hi hi' : Nat} {as bs : List α}

/-- Nodes in order between two places have the first before the second. -/
theorem le (h : InOrder span lo hi as) : lo ≤ hi := by
  induction as generalizing lo with
  | nil => exact h
  | cons a rest ih =>
    obtain ⟨s, -, hlo, hle, hrest⟩ := h
    exact Nat.le_trans (Nat.le_trans hlo hle) (ih hrest)

theorem mono (h : InOrder span lo hi as) (hlo : lo' ≤ lo) (hhi : hi ≤ hi') :
    InOrder span lo' hi' as := by
  induction as generalizing lo lo' with
  | nil => exact Nat.le_trans hlo (Nat.le_trans h hhi)
  | cons a rest ih =>
    obtain ⟨s, hs, hle, hwidth, hrest⟩ := h
    exact ⟨s, hs, Nat.le_trans hlo hle, hwidth, ih hrest (Nat.le_refl _)⟩

/-- Two runs of nodes in order, one behind the other, are in order. -/
theorem append {mid : Nat} (h : InOrder span lo mid as) (h' : InOrder span mid hi bs) :
    InOrder span lo hi (as ++ bs) := by
  induction as generalizing lo with
  | nil => exact h'.mono h (Nat.le_refl _)
  | cons a rest ih =>
    obtain ⟨s, hs, hlo, hle, hrest⟩ := h
    exact ⟨s, hs, hlo, hle, ih hrest⟩

/-- Every one of them lies between the two offsets. -/
theorem mem (h : InOrder span lo hi as) {a : α} (ha : a ∈ as) :
    ∃ s, span a = some s ∧ lo ≤ s.lo ∧ s.lo ≤ s.hi ∧ s.hi ≤ hi := by
  induction as generalizing lo with
  | nil => exact absurd ha List.not_mem_nil
  | cons b rest ih =>
    obtain ⟨s, hs, hlo, hle, hrest⟩ := h
    rcases List.mem_cons.mp ha with rfl | ha
    · exact ⟨s, hs, hlo, hle, hrest.le⟩
    · obtain ⟨s', hs', hlo', hrest'⟩ := ih hrest ha
      exact ⟨s', hs', by omega, hrest'⟩

end InOrder

/-- The end of a range that is read: the end of the text, or a byte at which no
name goes on and no tag ends. -/
def Rim (src : Text) (hi : Nat) : Prop :=
  hi = src.length ∨ ∃ b, src[hi]? = some b ∧ (b.isCloser = true ∨ b = comma ∨ b.isSpace = true)

/-- The end of a text or of a group is a seam. -/
theorem Rim.seam {src : Text} {hi : Nat} (h : Rim src hi) : Seam src hi := by
  rcases h with rfl | ⟨b, hb, hclass⟩
  · exact .length src
  · refine .of_isAscii hb ?_
    rcases hclass with hcloser | rfl | hspace
    · exact Byte.isAscii_of_isCloser hcloser
    · rfl
    · exact Byte.isAscii_of_isSpace hspace

namespace Scan

variable {src : Text}

/-- The text from a place on begins with the byte at that place. -/
theorem drop_eq_cons_of_getElem? {pos : Nat} {b : Byte} (h : src[pos]? = some b) :
    src.drop pos = b :: src.drop (pos + 1) := by
  obtain ⟨hlt, rfl⟩ := List.getElem?_eq_some_iff.mp h
  exact List.drop_eq_getElem_cons hlt

/-- A byte of a slice is the byte of the source that far behind its start. -/
theorem getElem?_of_getElem?_slice {lo hi k : Nat} {b : Byte} (h : (src.slice lo hi)[k]? = some b) :
    src[lo + k]? = some b ∧ lo + k < hi := by
  rw [Text.slice, List.getElem?_take] at h
  split at h
  · rw [List.getElem?_drop] at h
    exact ⟨h, by omega⟩
  · exact absurd h (by simp)

/-- A run of bytes of a class ends at the end of its range or at a byte of another class. -/
theorem length_takeWhile (p : Byte → Bool) (t : Text) :
    (t.takeWhile p).length = t.length ∨
      ∃ b, t[(t.takeWhile p).length]? = some b ∧ p b = false := by
  induction t with
  | nil => exact .inl rfl
  | cons b rest ih =>
    cases hb : p b with
    | false => exact .inr ⟨b, by simp [hb], hb⟩
    | true =>
      rw [List.takeWhile_cons_of_pos hb, List.length_cons, List.length_cons]
      exact ih.imp (congrArg (· + 1)) id

/-- Behind a run of bytes of a class comes a byte of another. -/
theorem not_of_drop_takeWhile {p : Byte → Bool} {t : Text} {b : Byte}
    (h : (t.drop (t.takeWhile p).length).head? = some b) : p b = false := by
  rw [List.head?_drop] at h
  rcases length_takeWhile p t with hall | ⟨c, hc, hend⟩
  · rw [hall, List.getElem?_length] at h
    exact absurd h (by simp)
  · obtain rfl : c = b := Option.some.inj (hc.symm.trans h)
    exact hend

/-- A run of bytes in a slice ends with the slice or at a byte of another kind. -/
theorem stop_takeWhile {lo hi : Nat} {p : Byte → Bool} (hle : lo ≤ hi) (hhi : hi ≤ src.length) :
    lo + ((src.slice lo hi).takeWhile p).length = hi ∨
      ∃ b, src[lo + ((src.slice lo hi).takeWhile p).length]? = some b ∧ p b = false := by
  rcases length_takeWhile p (src.slice lo hi) with hall | ⟨b, hb, hp⟩
  · left
    rw [hall, Text.slice, List.length_take, List.length_drop]
    omega
  · exact .inr ⟨b, (getElem?_of_getElem?_slice hb).1, hp⟩

/-- A name begins and goes on with ASCII bytes. -/
theorem seam_add_name {src : Text} {i : Nat} {p : Byte → Bool}
    (hp : ∀ b, p b = true → b.isAscii = true) {b : Byte} {rest : Text}
    (hdrop : src.drop i = b :: rest) (hb : b.isIdentStart = true) :
    Seam src (i + (1 + (rest.takeWhile p).length)) := by
  obtain ⟨hbyte, hrest⟩ := getElem?_of_drop_eq_cons hdrop
  have hascii := Byte.isAscii_of_isIdentChar (Byte.isIdentChar_of_isIdentStart hb)
  rw [← Nat.add_assoc]
  exact (Seam.succ_of_isAscii hbyte hascii).add_takeWhile ⟨[], by rw [hrest, List.append_nil]⟩ hp

/-- A closing brace found for an opening one ends a range, and itself at a seam. -/
theorem rim_close {pos n : Nat} {b close : Byte} {rest : Text} (hopen : src.drop pos = b :: rest)
    (hclose : closeTail (.group close) [] rest = some n) (hcloser : close.isCloser = true) :
    Rim src (pos + n) ∧ Seam src (pos + n + 1) := by
  obtain ⟨m, rfl, hm⟩ := getElem?_closeTail rfl hclose
  have hend : src[pos + (m + 1)]? = some close := by
    rw [← (getElem?_of_drop_eq_cons hopen).2, List.getElem?_drop] at hm
    rw [← Nat.add_assoc, Nat.add_right_comm]
    exact hm
  have hrim : Rim src (pos + (m + 1)) := .inr ⟨_, hend, .inl hcloser⟩
  exact ⟨hrim, .succ_of_isAscii hend (Byte.isAscii_of_isCloser hcloser)⟩

/-- The ranges between commas lie one behind the other. -/
theorem inOrder_segmentsFrom {hi start i : Nat} {ranges : List Span}
    (h : segmentsFrom src hi start i = some ranges) (hi' : start ≤ i) (hhi : start ≤ hi) :
    InOrder some start hi ranges := by
  replace h := segmentsTrace h
  induction h with
  | done => exact hhi
  | last => exact ⟨_, rfl, Nat.le_refl _, hhi, Nat.le_refl _⟩
  | pass hj _ ih => exact ih (Nat.le_trans hi' (Nat.le_of_lt hj)) hhi
  | comma hlt _ _ ih =>
    exact ⟨_, rfl, Nat.le_refl _, hi', (ih (Nat.le_refl _) hlt).mono (by simp) (Nat.le_refl _)⟩

/-- The ranges between commas begin at seams and end at commas or where all of them do. -/
theorem seam_segmentsFrom {hi start i : Nat} {ranges : List Span}
    (h : segmentsFrom src hi start i = some ranges) (hstart : Seam src start) (hhi : Rim src hi) :
    ∀ s ∈ ranges, Seam src s.lo ∧ Rim src s.hi := by
  replace h := segmentsTrace h
  induction h with
  | done => simp
  | last => simpa using ⟨hstart, hhi⟩
  | pass _ _ ih => exact ih hstart
  | comma _ hcomma _ ih =>
    exact List.forall_mem_cons.mpr
      ⟨⟨hstart, .inr ⟨_, hcomma, .inr (.inl rfl)⟩⟩, ih (.succ_of_isAscii hcomma rfl)⟩

/-- The holes of a template lie one behind the other, each between braces, and
the template ends at a seam. -/
theorem seam_templateTail {pos : Nat} {p : TemplateParts}
    (h : templateTail pos (src.drop pos) = some p) :
    InOrder some pos p.stop p.holes ∧ Seam src p.stop ∧
      ∀ s ∈ p.holes, (∃ i, s.lo = i + 1 ∧ src[i]? = some openBrace) ∧ Rim src s.hi := by
  obtain ⟨t, ht⟩ : ∃ t, src.drop pos = t := ⟨_, rfl⟩
  rw [ht] at h
  have hdrop {pos : Nat} {b : Byte} {rest : Text} (ht : src.drop pos = b :: rest) (k : Nat) :
      src.drop (pos + (k + 1)) = rest.drop k := by
    rw [← (getElem?_of_drop_eq_cons ht).2, List.drop_drop, Nat.add_assoc, Nat.add_comm k 1]
  replace h := templateTrace h
  induction h with
  | closing =>
    exact ⟨Nat.le_add_right .., .succ_of_isAscii (getElem?_of_drop_eq_cons ht).1 rfl, by simp⟩
  | escape _ ih =>
    obtain ⟨horder, hstop, hholes⟩ := ih (hdrop ht 1)
    simp only [TemplateParts.extend_holes, TemplateParts.extend_stop]
    exact ⟨horder.mono (Nat.le_add_right ..) (Nat.le_refl _), hstop, hholes⟩
  | @hole pos n rest p hclose _ ih =>
    obtain ⟨horder, hstop, hholes⟩ :=
      ih (by rw [Nat.add_assoc, Nat.add_comm 2]; exact hdrop ht (n + 1))
    obtain ⟨m, rfl, hm⟩ := getElem?_closeTail rfl hclose
    have hbrace : src[pos + 1]? = some openBrace := by
      rw [← List.head?_drop, (getElem?_of_drop_eq_cons ht).2]
      rfl
    have hend : src[pos + 2 + m]? = some closeBrace := by
      rw [← List.getElem?_drop, hdrop ht 1]
      exact hm
    refine ⟨⟨_, rfl, Nat.le_add_right .., ?_, horder.mono ?_ (Nat.le_refl _)⟩, hstop, ?_⟩
    · show pos + 2 ≤ pos + 1 + (m + 1)
      omega
    · show pos + 1 + (m + 1) ≤ pos + 2 + (m + 1)
      omega
    · refine List.forall_mem_cons.mpr
        ⟨⟨⟨_, rfl, hbrace⟩, .inr ⟨closeBrace, ?_, .inl rfl⟩⟩, hholes⟩
      show src[pos + 1 + (m + 1)]? = some closeBrace
      rw [← hend]
      congr 1
      omega
  | byte _ _ _ _ ih =>
    obtain ⟨horder, hstop, hholes⟩ := ih (hdrop ht 0)
    simp only [TemplateParts.extend_holes, TemplateParts.extend_stop]
    exact ⟨horder.mono (Nat.le_add_right ..) (Nat.le_refl _), hstop, hholes⟩

/-- The holes of a template are ranges as readers are given them. -/
theorem seam_holes {pos : Nat} {p : TemplateParts}
    (h : templateTail pos (src.drop pos) = some p) :
    ∀ s ∈ p.holes, Seam src s.lo ∧ Rim src s.hi := by
  intro s hs
  obtain ⟨⟨i, hlo, hbrace⟩, hrim⟩ := (seam_templateTail h).2.2 s hs
  rw [hlo]
  exact ⟨.succ_of_isAscii hbrace rfl, hrim⟩

end Scan

/-- The end of a name that starts at a seam is a seam. -/
theorem Seam.nameEnd {src : Text} {i : Nat} (h : Seam src i) : Seam src (Scan.nameEnd src i) := by
  unfold Scan.nameEnd
  cases hdrop : src.drop i with
  | nil => exact h
  | cons b rest =>
    rw [Scan.nameLength]
    split
    case isTrue hb => exact Scan.seam_add_name (fun _ => Byte.isAscii_of_isNameChar) hdrop hb
    case isFalse => exact h

/-- The end of an identifier that starts at a seam is a seam. -/
theorem Seam.identEnd {src : Text} {i : Nat} (h : Seam src i) :
    Seam src (i + Scan.identLength (src.drop i)) := by
  cases hdrop : src.drop i with
  | nil => exact h
  | cons b rest =>
    rw [Scan.identLength]
    split
    case isTrue hb => exact Scan.seam_add_name (fun _ => Byte.isAscii_of_isIdentChar) hdrop hb
    case isFalse => exact h

end JsxStyle
