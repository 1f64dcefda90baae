import JsxStyle.Compile
import JsxStyle.Proofs.CheckedText
import Mathlib.Algebra.GroupWithZero.Nat

/-!
# Lines and columns name offsets

A position counts line feeds and, behind the last of them, characters, while an
offset counts bytes.  Between two characters the one can be had from the other:
the lines before the one that is named are skipped as wholes, and the characters
before the column are as many as were counted, because a character is one byte
that continues none and the bytes that continue it.

Every byte that is read moves a position on or leaves it, and the first byte of a
character moves it on.  So of two offsets between characters the later one has the
later position.

* `characters_append`: a text that is cut between two characters has the characters
  of both parts;
* `exists_lastLine`: the lines up to an offset;
* `before_positionAt`, `offsetOf_positionAt`: the order of positions, and the way back;
* `positions_faithful`: both for a text, and what follows for reports.
-/

namespace JsxStyle

open Ascii

namespace Position

/-- Whether `p` is on an earlier line than `q`, or further left on the same one. -/
def Before (p q : Position) : Prop :=
  p.line < q.line ∨ p.line = q.line ∧ p.column < q.column

instance (p q : Position) : Decidable (p.Before q) :=
  inferInstanceAs (Decidable (_ ∨ _))

variable {p q r : Position} {b : Byte}

theorem Before.trans (h : p.Before q) (h' : q.Before r) : p.Before r := by
  unfold Before at *
  omega

theorem Before.ne (h : p.Before q) : p ≠ q := by
  rintro rfl
  unfold Before at h
  omega

/-- A byte that begins a character moves the position on. -/
theorem before_advance (hb : b.isContinuation = false) : p.Before (p.advance b) := by
  unfold advance
  split
  · exact Or.inl (Nat.lt_succ_self _)
  · rw [if_neg (by simp [hb])]
    exact Or.inr ⟨rfl, Nat.lt_succ_self _⟩

/-- Going on from a later position stays behind the earlier one. -/
theorem Before.foldl_advance (h : p.Before q) (t : Text) : p.Before (t.foldl advance q) := by
  induction t generalizing q with
  | nil => exact h
  | cons b rest ih =>
    refine ih ?_
    by_cases hb : b.isContinuation = false
    · exact h.trans (before_advance hb)
    · have hnewline : b ≠ newline := by
        rintro rfl
        exact hb rfl
      rwa [advance, if_neg hnewline, if_pos (by simpa using hb)]

end Position

namespace Text

variable {t u v : Text}

/-- The characters of a text, each as the bytes that encode it. -/
def characters (t : Text) : List Text :=
  match t with
  | [] => []
  | b :: rest =>
    (b :: rest).take (decodeStep b rest).width ::
      characters ((b :: rest).drop (decodeStep b rest).width)
termination_by t.length
decreasing_by
  have := decodeStep_pos b rest
  simp only [List.length_drop, List.length_cons]
  omega

/-- The line feed separated lines of a text. -/
def lines (t : Text) : List Text :=
  t.pieces newline

/-- The line with a given number, counted from one. -/
def line (t : Text) (number : Nat) : Text :=
  t.lines[number - 1]?.getD []

/-- The offset at which a line begins: behind all lines before it and their line feeds. -/
def lineStart (t : Text) (number : Nat) : Nat :=
  ((t.lines.take (number - 1)).map fun line => line.length + 1).sum

/-- The offset that a position names: so many characters behind the beginning of its line
as there are columns before its own. -/
def offsetOf (t : Text) (p : Position) : Nat :=
  t.lineStart p.line + (((t.line p.line).characters.take (p.column - 1)).map List.length).sum

/-! ### Characters -/

/-- The first character takes the bytes that decoding takes, and the others follow. -/
theorem characters_cons {b : Byte} {tail post : Text} {char : Option Char}
    (h : decodeStep b (tail ++ post) = ⟨char, tail.length + 1⟩) :
    characters (b :: (tail ++ post)) = (b :: tail) :: characters post := by
  rw [characters, h]
  simp

/-- A text that is cut between two characters has the characters of both parts. -/
theorem characters_append (hcut : ∀ b ∈ v.head?, b.isContinuation = false)
    (h : isUtf8 (u ++ v) = true) :
    isUtf8 u = true ∧ isUtf8 v = true ∧ characters (u ++ v) = characters u ++ characters v := by
  induction hlen : u.length using Nat.strongRecOn generalizing u with
  | ind n ih =>
    cases u with
    | nil => exact ⟨by rw [isUtf8], h, by rw [characters.eq_def []]; rfl⟩
    | cons b rest =>
      rw [List.cons_append] at h
      obtain ⟨-, tail, post, hrest, hpost, hall, -, char, hreads⟩ := exists_of_isUtf8_cons h
      -- The first character does not reach behind the cut.
      obtain ⟨inner, rfl, rfl⟩ : ∃ inner, rest = tail ++ inner ∧ post = inner ++ v := by
        rcases List.append_eq_append_iff.mp hrest with ⟨beyond, htail, hv⟩ | ⟨inner, hinner, hpost⟩
        · cases beyond with
          | nil => exact ⟨[], by simpa using htail.symm, by simpa using hv.symm⟩
          | cons c beyond =>
            have hc := hall c (htail ▸ by simp)
            rw [hcut c (hv ▸ rfl)] at hc
            exact absurd hc (by simp)
        · exact ⟨inner, hinner, hpost⟩
      obtain ⟨hinner, hv, hcharacters⟩ :=
        ih inner.length (by rw [← hlen]; simp only [List.length_cons, List.length_append]; omega)
          hpost rfl
      refine ⟨?_, hv, ?_⟩
      · rw [isUtf8, hreads]
        simpa using hinner
      · rw [List.cons_append, List.append_assoc, characters_cons (hreads _),
          characters_cons (hreads _), hcharacters, List.cons_append]

/-- The characters of a text are as long as the text. -/
theorem sum_characters (h : isUtf8 t = true) : (t.characters.map List.length).sum = t.length := by
  induction hlen : t.length using Nat.strongRecOn generalizing t with
  | ind n ih =>
    cases t with
    | nil => rw [characters]; exact hlen
    | cons b rest =>
      obtain ⟨-, tail, post, rfl, hpost, -, -, char, hreads⟩ := exists_of_isUtf8_cons h
      rw [List.length_cons, List.length_append] at hlen
      rw [characters_cons (hreads _), List.map_cons, List.sum_cons, ih _ (by omega) hpost rfl,
        List.length_cons]
      omega

/-- A text has as many characters as it has bytes that continue none. -/
theorem length_characters (h : isUtf8 t = true) :
    t.characters.length = (t.filter (!·.isContinuation)).length := by
  induction hlen : t.length using Nat.strongRecOn generalizing t with
  | ind n ih =>
    cases t with
    | nil => rw [characters]; rfl
    | cons b rest =>
      obtain ⟨hb, tail, post, rfl, hpost, hall, -, char, hreads⟩ := exists_of_isUtf8_cons h
      rw [List.length_cons, List.length_append] at hlen
      have hnone : tail.filter (!·.isContinuation) = [] :=
        List.filter_eq_nil_iff.mpr fun c hc => by simp [hall c hc]
      rw [characters_cons (hreads _), List.length_cons, ih _ (by omega) hpost rfl,
        List.filter_cons_of_pos (by simp [hb]), List.filter_append, hnone, List.nil_append,
        List.length_cons]

/-! ### Lines -/

/-- A byte joins the first piece, or is a separator and begins one. -/
theorem pieces_cons {sep : Byte} {first : Text} {others : List Text}
    (h : pieces sep t = first :: others) (b : Byte) :
    pieces sep (b :: t) = if b = sep then [] :: first :: others else (b :: first) :: others := by
  rw [pieces, h]

/-- A text has at least one piece. -/
theorem exists_pieces (sep : Byte) (t : Text) : ∃ first others, pieces sep t = first :: others :=
  List.exists_cons_of_ne_nil (pieces_ne_nil sep t)

/-- A text without separators joins the first piece. -/
theorem pieces_append_left {sep : Byte} {first : Text} {others : List Text} (hu : sep ∉ u)
    (hv : pieces sep v = first :: others) : pieces sep (u ++ v) = (u ++ first) :: others := by
  induction u with
  | nil => exact hv
  | cons b rest ih =>
    rw [List.mem_cons, not_or] at hu
    rw [List.cons_append, pieces_cons (ih hu.2), if_neg (Ne.symm hu.1), List.cons_append]

/-- The first piece of a text is a beginning of it, and ends in front of a separator. -/
theorem exists_of_pieces {sep : Byte} {first : Text} {others : List Text}
    (h : pieces sep t = first :: others) :
    ∃ post, t = first ++ post ∧ ∀ b ∈ post.head?, b = sep := by
  induction t generalizing first others with
  | nil =>
    obtain ⟨rfl, -⟩ := List.cons.inj h
    exact ⟨[], rfl, by simp⟩
  | cons b rest ih =>
    obtain ⟨first', others', hrest⟩ := exists_pieces sep rest
    rw [pieces_cons hrest] at h
    split at h
    case isTrue hb =>
      obtain ⟨rfl, -⟩ := List.cons.inj h
      exact ⟨b :: rest, rfl, by simpa using hb⟩
    case isFalse =>
      obtain ⟨rfl, -⟩ := List.cons.inj h
      obtain ⟨post, hpost, hhead⟩ := ih hrest
      exact ⟨post, congrArg (b :: ·) hpost, hhead⟩

/-- There is one piece more than there are separators. -/
theorem length_pieces (sep : Byte) (t : Text) : (pieces sep t).length = t.count sep + 1 := by
  induction t with
  | nil => rfl
  | cons b rest ih =>
    obtain ⟨first, others, hrest⟩ := exists_pieces sep rest
    rw [hrest] at ih
    rw [pieces_cons hrest, List.count_cons]
    by_cases hb : b = sep <;> simp_all

/-- Pieces and separators together are as long as the text, with one separator more. -/
theorem sum_pieces (sep : Byte) (t : Text) :
    ((pieces sep t).map fun piece => piece.length + 1).sum = t.length + 1 := by
  induction t with
  | nil => rfl
  | cons b rest ih =>
    obtain ⟨first, others, hrest⟩ := exists_pieces sep rest
    rw [hrest, List.map_cons, List.sum_cons] at ih
    rw [pieces_cons hrest]
    split <;> simp only [List.map_cons, List.sum_cons, List.length_nil, List.length_cons] <;> omega

/-- A text up to its last line feed, which are so many lines of every text that begins
with it, and the run without line feeds behind it. -/
theorem exists_lastRun (u : Text) : ∃ w last before, u = w ++ last ∧ newline ∉ last ∧
    (∀ b ∈ w.getLast?, b = newline) ∧
      (u.reverse.takeWhile (· != newline)).reverse = last ∧ before.length = w.count newline ∧
      (before.map fun line => line.length + 1).sum = w.length ∧
      ∀ t, lines (w ++ t) = before ++ lines t := by
  have hsplit := List.takeWhile_append_dropWhile (p := (· != newline)) (l := u.reverse)
  have hrun : newline ∉ u.reverse.takeWhile (· != newline) := fun h => by
    simpa using List.all_eq_true.mp List.all_takeWhile _ h
  have hu : u = (u.reverse.dropWhile (· != newline)).reverse ++
      (u.reverse.takeWhile (· != newline)).reverse := by
    rw [← List.reverse_append, hsplit, List.reverse_reverse]
  have hlast := fun h => hrun (List.mem_reverse.mp h)
  cases hdrop : u.reverse.dropWhile (· != newline) with
  | nil =>
    rw [hdrop] at hu
    exact ⟨[], _, [], hu, hlast, by simp, rfl, rfl, rfl, fun _ => rfl⟩
  | cons b rest =>
    have hb := List.head?_dropWhile_not (· != newline) u.reverse
    rw [hdrop] at hb
    obtain rfl : b = newline := by simpa using hb
    rw [hdrop, List.reverse_cons] at hu
    refine ⟨_, _, lines rest.reverse, hu, hlast, by simp, rfl, ?_, ?_, fun t => ?_⟩
    · rw [lines, length_pieces, List.count_append]
      rfl
    · rw [lines, sum_pieces, List.length_append, List.length_singleton]
    · rw [lines, List.append_assoc, List.singleton_append, pieces_append]
      rfl

/-- What is read up to an offset, taken apart behind its last line feed: the lines before
are skipped, and the line that goes on behind the offset begins with the rest. -/
theorem exists_lastLine (u v : Text) : ∃ w last more post,
    u = w ++ last ∧ v = more ++ post ∧ (∀ b ∈ w.getLast?, b = newline) ∧
      (∀ b ∈ post.head?, b = newline) ∧ (u.reverse.takeWhile (· != newline)).reverse = last ∧
      (u ++ v).lineStart (u.count newline + 1) = w.length ∧
      (u ++ v).line (u.count newline + 1) = last ++ more := by
  obtain ⟨more, others, hmore⟩ := exists_pieces newline v
  obtain ⟨post, hv, hpost⟩ := exists_of_pieces hmore
  obtain ⟨w, last, before, rfl, hlast, hw, hrun, hlength, hsum, hlines⟩ := exists_lastRun u
  have hcount : (w ++ last).count newline = before.length := by
    rw [List.count_append, List.count_eq_zero.mpr hlast, hlength, Nat.add_zero]
  have hall : lines (w ++ last ++ v) = before ++ (last ++ more) :: others := by
    rw [List.append_assoc, hlines, lines, pieces_append_left hlast hmore]
  refine ⟨w, last, more, post, rfl, hv, hw, hpost, hrun, ?_, ?_⟩
  · rw [lineStart, hall, hcount, Nat.add_sub_cancel, List.take_left, hsum]
  · rw [line, hall, hcount, Nat.add_sub_cancel, List.getElem?_append_right (Nat.le_refl _),
      Nat.sub_self]
    rfl

/-! ### Positions -/

variable {a b : Nat}

/-- At an offset between characters a character begins. -/
theorem head_drop_of_isBoundary (hutf8 : isUtf8 t = true) (ha : t.isBoundary a = true) :
    ∀ b ∈ (t.drop a).head?, b.isContinuation = false := by
  intro b hb
  rw [List.head?_drop] at hb
  simp only [isBoundary, Bool.or_eq_true, beq_iff_eq] at ha
  rcases ha with (rfl | rfl) | ha
  · cases t with
    | nil => simp at hb
    | cons first rest =>
      obtain rfl : first = b := by simpa using hb
      exact not_isContinuation_head hutf8
  · simp at hb
  · rw [hb] at ha
    simpa using ha

/-- Of two offsets between characters the later one has the later position. -/
theorem before_positionAt (hutf8 : isUtf8 t = true) (ha : t.isBoundary a = true)
    (hb : t.isBoundary b = true) (hlt : a < b) : (t.positionAt a).Before (t.positionAt b) := by
  have hle := le_length_of_isBoundary hb
  have hhead := head_drop_of_isBoundary hutf8 ha
  obtain ⟨k, rfl⟩ : ∃ k, b = a + (k + 1) := ⟨b - a - 1, by omega⟩
  cases hdrop : t.drop a with
  | nil => exact absurd (List.drop_eq_nil_iff.mp hdrop) (by omega)
  | cons first rest =>
    rw [hdrop] at hhead
    rw [positionAt, positionAt, List.take_add, hdrop, List.take_succ_cons, List.foldl_append,
      List.foldl_cons]
    exact (Position.before_advance (hhead first rfl)).foldl_advance _

/-- A line of a text is a text, cut where the text is cut between two characters. -/
theorem isUtf8_line {w last more post : Text} (hw : ∀ b ∈ w.getLast?, b = newline)
    (hmore : ∀ b ∈ (more ++ post).head?, b.isContinuation = false)
    (hpost : ∀ b ∈ post.head?, b = newline)
    (h : isUtf8 (w ++ (last ++ (more ++ post))) = true) :
    isUtf8 last = true ∧ characters (last ++ more) = characters last ++ characters more := by
  have hfirst : ∀ b ∈ (last ++ (more ++ post)).head?, b.isContinuation = false := by
    intro b hb
    rcases List.eq_nil_or_concat w with rfl | ⟨before, c, rfl⟩
    · cases hrest : last ++ (more ++ post) with
      | nil => simp [hrest] at hb
      | cons first rest =>
        obtain rfl : first = b := by simpa [hrest] using hb
        exact not_isContinuation_head (hrest ▸ h)
    · obtain rfl : c = newline := hw c (by simp)
      refine not_isContinuation_succ h (i := before.length) (b := newline) (by simp) rfl ?_
      rw [List.getElem?_append_right (by simp), List.length_concat, Nat.sub_self,
        ← List.head?_eq_getElem?]
      exact hb
  obtain ⟨-, hrest, -⟩ := characters_append hfirst h
  obtain ⟨hlast, hbehind, -⟩ := characters_append hmore hrest
  have hend : ∀ b ∈ post.head?, b.isContinuation = false := fun b hb => by rw [hpost b hb]; rfl
  rw [← List.append_assoc] at hrest
  obtain ⟨hline, -⟩ := characters_append hend hrest
  refine ⟨hlast, (characters_append (fun b hb => hmore b ?_) hline).2.2⟩
  cases more with
  | nil => simp at hb
  | cons c more => exact hb

/-- The offset that the position of an offset between characters names is that offset. -/
theorem offsetOf_positionAt (hutf8 : isUtf8 t = true) (ha : t.isBoundary a = true) :
    t.offsetOf (t.positionAt a) = a := by
  have hle := le_length_of_isBoundary ha
  have hhead := head_drop_of_isBoundary hutf8 ha
  obtain ⟨w, last, more, post, hu, hv, hw, hpost, hrun, hstart, hline⟩ :=
    exists_lastLine (t.take a) (t.drop a)
  have hlength : w.length + last.length = a := by
    rw [← List.length_append, ← hu, List.length_take_of_le hle]
  rw [List.take_append_drop] at hstart hline
  rw [hv] at hhead
  rw [← List.take_append_drop a t, hu, hv, List.append_assoc] at hutf8
  obtain ⟨hlast, hcharacters⟩ := isUtf8_line hw hhead hpost hutf8
  rw [positionAt, foldl_advance, hrun, offsetOf, hstart, hline, Nat.add_sub_cancel,
    ← length_characters hlast, hcharacters, List.take_left, sum_characters hlast, hlength]

end Text

/-- **Positions are faithful.**  In a text, of two offsets between characters the later one
has the later position, and a position leads back to its offset.  So failures are reported
in the order of the places that they point at, and not alike unless these begin together. -/
theorem positions_faithful {src : Text} (hutf8 : Text.isUtf8 src = true) :
    (∀ a b, src.isBoundary a = true → src.isBoundary b = true → a < b →
      (src.positionAt a).Before (src.positionAt b)) ∧
    (∀ a, src.isBoundary a = true → src.offsetOf (src.positionAt a) = a) ∧
    ∀ (e e' : StyleError) (s s' : Span), e.span = some s → e'.span = some s' →
      src.isBoundary s.lo = true → src.isBoundary s'.lo = true →
      (s.lo < s'.lo → (e.position src).Before (e'.position src)) ∧
        (s.lo ≠ s'.lo → e.position src ≠ e'.position src) := by
  refine ⟨fun a b ha hb => Text.before_positionAt hutf8 ha hb,
    fun a ha => Text.offsetOf_positionAt hutf8 ha, fun e e' s s' he he' hs hs' => ?_⟩
  rw [StyleError.position, he, StyleError.position, he']
  refine ⟨Text.before_positionAt hutf8 hs hs', fun hne => ?_⟩
  rcases Nat.lt_or_gt_of_ne hne with hlt | hgt
  · exact (Text.before_positionAt hutf8 hs hs' hlt).ne
  · exact (Text.before_positionAt hutf8 hs' hs hgt).ne.symm

/-- Two lines with characters of one, two and three bytes, and the place of the last of them. -/
theorem accented_lines_positions :
    Text.isUtf8 (Text.ofString "aé\nñ€x") = true ∧
      (Text.ofString "aé\nñ€x").positionAt 9 = ⟨2, 3⟩ ∧
      (Text.ofString "aé\nñ€x").offsetOf ⟨2, 3⟩ = 9 ∧
      ((Text.ofString "aé\nñ€x").positionAt 3).Before ⟨2, 3⟩ := by
  have hutf8 : Text.isUtf8 (Text.ofString "aé\nñ€x") = true := by decide +kernel
  have hposition : (Text.ofString "aé\nñ€x").positionAt 9 = ⟨2, 3⟩ := by decide +kernel
  obtain ⟨horder, hback, -⟩ := positions_faithful hutf8
  refine ⟨hutf8, hposition, ?_, ?_⟩
  · rw [← hposition]
    exact hback 9 (by decide +kernel)
  · rw [← hposition]
    exact horder 3 9 (by decide +kernel) (by decide +kernel) (by decide)

end JsxStyle
