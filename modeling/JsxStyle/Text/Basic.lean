import JsxStyle.Text.Ascii

/-!
# Text as bytes

A `Text` is the list of bytes of a UTF-8 string.  Offsets into it are byte
offsets and `slice` cuts by them.  The remaining operations are the cuts that
readers of import clauses, tags and settings need: splitting at a byte,
splitting at the first occurrence of a word, taking a word off either end.

* `slice_append_slice`: neighbouring slices join without loss;
* `join_pieces`: splitting at a byte and joining with it gives the text back;
* `pieces_join`: joining with a byte and splitting at it gives the texts back.
-/

namespace JsxStyle

/-- The bytes of a UTF-8 string. -/
abbrev Text := List Byte

namespace Text

/-- The UTF-8 encoding of one character. -/
def ofChar (c : Char) : Text :=
  String.utf8EncodeChar c

/-- The UTF-8 encoding of a string. -/
def ofString (s : String) : Text :=
  s.toList.flatMap ofChar

/-- The decimal digits of a number. -/
def ofNat (n : Nat) : Text :=
  (Nat.toDigits 10 n).flatMap ofChar

/-- The bytes from offset `lo` up to, and not including, offset `hi`. -/
def slice (t : Text) (lo hi : Nat) : Text :=
  (t.drop lo).take (hi - lo)

/-- Whether `word` occurs in a text; the empty word occurs in every one. -/
def hasWord (word : Text) : Text → Bool
  | [] => word.isEmpty
  | b :: rest => word.isPrefixOf (b :: rest) || hasWord word rest

/-- The pieces of `t` between the occurrences of `sep`: always at least one. -/
def pieces (sep : Byte) : Text → List Text
  | [] => [[]]
  | b :: rest =>
    match pieces sep rest with
    | [] => [[b]]
    | first :: others => if b = sep then [] :: first :: others else (b :: first) :: others

/-- What stands before and after the first occurrence of `word`. -/
def splitOnce (word : Text) : Text → Option (Text × Text)
  | [] => if word.isEmpty then some ([], []) else none
  | b :: rest =>
    if word.isPrefixOf (b :: rest) then some ([], (b :: rest).drop word.length)
    else (splitOnce word rest).map fun (before, after) => (b :: before, after)

/-- `t` without a leading `word`, or `t` itself if it does not start with it. -/
def dropLead (word t : Text) : Text :=
  if word.isPrefixOf t then t.drop word.length else t

/-- `t` without a final `word`, or `t` itself if it does not end with it. -/
def dropTrail (word t : Text) : Text :=
  if word.isSuffixOf t then t.take (t.length - word.length) else t

/-- The pieces put one after the other with `sep` between neighbours. -/
def join (sep : Text) (parts : List Text) : Text :=
  sep.intercalate parts

/-- `t` with every occurrence of `word` replaced, read from the left.
`word` is expected to be nonempty; an empty one changes nothing. -/
def replaceAll (word new : Text) (t : Text) : Text :=
  match t with
  | [] => []
  | b :: rest =>
    if word ≠ [] ∧ word.isPrefixOf (b :: rest) then
      new ++ replaceAll word new (rest.drop (word.length - 1))
    else b :: replaceAll word new rest
termination_by t.length
decreasing_by all_goals (simp only [List.length_drop, List.length_cons]; omega)

/-- Neighbouring slices join to the slice that spans them both. -/
theorem slice_append_slice (t : Text) {lo mid hi : Nat} (h₁ : lo ≤ mid) (h₂ : mid ≤ hi) :
    t.slice lo mid ++ t.slice mid hi = t.slice lo hi := by
  have hmid : t.drop mid = (t.drop lo).drop (mid - lo) := by
    rw [List.drop_drop]; congr 1; omega
  have hsum : hi - lo = (mid - lo) + (hi - mid) := by omega
  rw [slice, slice, slice, hmid, hsum, List.take_add]

/-- An empty range cuts out nothing. -/
@[simp] theorem slice_self (t : Text) (i : Nat) : t.slice i i = [] := by
  simp [slice]

/-- The slice of the whole range is the text. -/
@[simp] theorem slice_zero_length (t : Text) : t.slice 0 t.length = t := by
  simp [slice]

theorem pieces_ne_nil (sep : Byte) (t : Text) : pieces sep t ≠ [] := by
  cases t with
  | nil => simp [pieces]
  | cons b rest =>
    rw [pieces]
    split
    · simp
    · split <;> simp

/-- Splitting at a byte and joining with that byte gives the text back. -/
theorem join_pieces (sep : Byte) (t : Text) : join [sep] (pieces sep t) = t := by
  induction t with
  | nil => simp [pieces, join]
  | cons b rest ih =>
    rw [pieces]
    cases hp : pieces sep rest with
    | nil => exact absurd hp (pieces_ne_nil sep rest)
    | cons first others =>
      rw [hp] at ih
      by_cases hb : b = sep
      · subst hb; simp_all [join]
      · cases others with
        | nil => simp_all [join]
        | cons next more => simp_all [join]

theorem pieces_append (sep : Byte) (u v : Text) :
    pieces sep (u ++ sep :: v) = pieces sep u ++ pieces sep v := by
  induction u with
  | nil =>
    cases hv : pieces sep v with
    | nil => exact absurd hv (pieces_ne_nil sep v)
    | cons first others => simp [pieces, hv]
  | cons b rest ih =>
    cases hrest : pieces sep rest with
    | nil => exact absurd hrest (pieces_ne_nil sep rest)
    | cons first others =>
      rw [hrest, List.cons_append] at ih
      simp only [List.cons_append, pieces, ih, hrest]
      split <;> rfl

theorem pieces_of_not_mem {sep : Byte} {t : Text} (h : sep ∉ t) : pieces sep t = [t] := by
  induction t with
  | nil => rfl
  | cons b rest ih =>
    rw [List.mem_cons, not_or] at h
    simp [pieces, ih h.2, Ne.symm h.1]

theorem mem_join {sep : Text} {us : List Text} {b : Byte} (hb : b ∈ join sep us) :
    b ∈ sep ∨ ∃ u ∈ us, b ∈ u := by
  induction us with
  | nil => exact absurd hb List.not_mem_nil
  | cons u us ih =>
    cases us with
    | nil => exact Or.inr ⟨u, List.mem_cons_self, by simpa [join] using hb⟩
    | cons v vs =>
      rw [join, List.intercalate_cons_cons, List.mem_append, List.mem_append] at hb
      obtain (hu | hsep) | hrest := hb
      · exact Or.inr ⟨u, List.mem_cons_self, hu⟩
      · exact Or.inl hsep
      · refine (ih hrest).imp_right fun h => ?_
        obtain ⟨w, hw, hmem⟩ := h
        exact ⟨w, List.mem_cons_of_mem _ hw, hmem⟩

/-- Joining texts with a byte that is in none of them and splitting at it gives them back. -/
theorem pieces_join {sep : Byte} {parts : List Text} (hne : parts ≠ [])
    (h : ∀ part ∈ parts, sep ∉ part) : pieces sep (join [sep] parts) = parts := by
  induction parts with
  | nil => exact absurd rfl hne
  | cons part rest ih =>
    obtain ⟨hpart, hrest⟩ := List.forall_mem_cons.mp h
    cases rest with
    | nil => simp [join, pieces_of_not_mem hpart]
    | cons next more =>
      rw [join, List.intercalate_cons_cons, List.append_assoc, List.singleton_append, ← join,
        pieces_append, pieces_of_not_mem hpart, ih (List.cons_ne_nil next more) hrest]
      rfl

end Text

end JsxStyle
