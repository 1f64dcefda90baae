import JsxStyle.Proofs.Comments
import JsxStyle.Proofs.Trailing

/-!
# Markup inside another text

The same markup can stand in two texts, further on in the second, with other code before
it and something else behind it.  Every scanner that is started in it comes to the same
end in both, and every look at what stands before an offset in it gives the same answer,
since nothing before the `<` that it begins with is looked at from there.

Only a bracket that the markup leaves open can be closed behind it.  What matters is a
bracket in an expression, that is, between braces: elsewhere an open bracket is text, or
there is no markup at all.

* `Scan.InBraces`: a range between braces that the search for brackets pairs;
* `Embeds`: the two texts, with one lemma for each scanner that the readers use.
-/

namespace JsxStyle

open Ascii

namespace Scan

variable {src : Text} {pos : Nat}

/-- Skipping white space does not leave the text. -/
theorem skipSpace_le_length (stop : Nat) (h : pos ≤ src.length) :
    skipSpace src pos stop ≤ src.length := by
  have hrun := (List.takeWhile_prefix Byte.isSpace (l := src.slice pos stop)).length_le
  have hslice : (src.slice pos stop).length ≤ (src.drop pos).length := List.length_take_le' ..
  rw [List.length_drop] at hslice
  rw [skipSpace]
  omega

/-- A name does not reach beyond the text. -/
theorem nameEnd_le_length (h : pos ≤ src.length) : nameEnd src pos ≤ src.length := by
  have hle := nameLength_le_length (src.drop pos)
  rw [List.length_drop] at hle
  rw [nameEnd]
  omega

/-- The range lies between braces that begin at `start` or behind it. -/
def InBraces (src : Text) (start lo hi : Nat) : Prop :=
  ∃ opening closing, start ≤ opening ∧ src[opening]? = some openBrace ∧
    matching src opening = some closing ∧ opening < lo ∧ hi ≤ closing

namespace InBraces

variable {start lo hi lo' hi' : Nat}

/-- A range between braces begins behind them. -/
theorem start_lt (h : InBraces src start lo hi) : start < lo := by
  obtain ⟨opening, -, hstart, -, -, hlo, -⟩ := h
  exact Nat.lt_of_le_of_lt hstart hlo

/-- A range between braces ends inside the text. -/
theorem hi_lt (h : InBraces src start lo hi) : hi < src.length := by
  obtain ⟨opening, closing, -, hbrace, hclose, -, hhi⟩ := h
  have hdrop := drop_eq_cons_of_getElem? hbrace
  rw [matching_of_closer hdrop rfl] at hclose
  obtain ⟨n, hn, rfl⟩ := Option.map_eq_some_iff.mp hclose
  have hwithin := (closeTail_bounds hn).2
  have hlength := congrArg List.length hdrop
  rw [List.length_drop, List.length_cons] at hlength
  omega

theorem mono (h : InBraces src start lo hi) (hlo : lo ≤ lo') (hhi : hi' ≤ hi) :
    InBraces src start lo' hi' := by
  obtain ⟨opening, closing, hstart, hbrace, hclose, hlo', hhi'⟩ := h
  exact ⟨opening, closing, hstart, hbrace, hclose, Nat.lt_of_lt_of_le hlo' hlo,
    Nat.le_trans hhi hhi'⟩

/-- What stands behind a brace, up to the one that closes it. -/
theorem of_closeTail {rest : Text} {n : Nat} (hstart : start ≤ pos)
    (hdrop : src.drop pos = openBrace :: rest)
    (hclose : closeTail (.group closeBrace) [] rest = some n) (hlo : pos < lo) :
    InBraces src start lo (pos + n) :=
  ⟨pos, pos + n, hstart, (getElem?_of_drop_eq_cons hdrop).1,
    by rw [matching_of_closer hdrop rfl, hclose, Option.map_some], hlo, Nat.le_refl _⟩

end InBraces

end Scan

/-- From the `<` at `start` on, `src` stands in `src'` as well, `d` bytes further on and
sealed off by `post`, which closes no bracket that `src` has between braces. -/
structure Embeds (src src' post : Text) (start d : Nat) : Prop where
  less : src[start]? = some less
  drop : src'.drop (start + d) = src.drop start ++ post
  seals : Scan.Seals post
  kept : ∀ i, Scan.InBraces src start i (i + 1) →
    Scan.matching src' (i + d) ≠ some (src.length + d)

namespace Embeds

variable {src src' post : Text} {start d : Nat} (h : Embeds src src' post start d)
include h

section Bytes

variable {i lo hi : Nat}

/-- From inside the markup on, the other text has the same and more behind it. -/
theorem drop_add (hi : start ≤ i) (hlen : i ≤ src.length) :
    src'.drop (i + d) = src.drop i ++ post := by
  obtain ⟨k, rfl⟩ := Nat.exists_eq_add_of_le hi
  rw [Nat.add_right_comm, ← List.drop_drop, h.drop, ← List.drop_drop,
    List.drop_append_of_le_length (by rw [List.length_drop]; omega)]

/-- The other text has the same byte at the place moved along. -/
theorem drop_cons (hi : start ≤ i) {b : Byte} {rest : Text} (hdrop : src.drop i = b :: rest) :
    src'.drop (i + d) = b :: (rest ++ post) := by
  have hlen : i ≤ src.length := Nat.le_of_lt (List.getElem?_eq_some_iff.mp
    (Scan.getElem?_of_drop_eq_cons hdrop).1).1
  rw [h.drop_add hi hlen, hdrop, List.cons_append]

/-- A slice of the markup is the same in both texts. -/
theorem slice (hlo : start ≤ lo) (hhi : hi ≤ src.length) :
    src'.slice (lo + d) (hi + d) = src.slice lo hi := by
  have hwidth : hi + d - (lo + d) = hi - lo := Nat.add_sub_add_right ..
  rw [Text.slice, Text.slice, hwidth]
  rcases Nat.le_total lo hi with hle | hle
  · rw [h.drop_add hlo (Nat.le_trans hle hhi),
      List.take_append_of_le_length (by rw [List.length_drop]; omega)]
  · rw [Nat.sub_eq_zero_of_le hle, List.take_zero, List.take_zero]

/-- White space is skipped alike in both texts. -/
theorem skipSpace (hlo : start ≤ lo) (hhi : hi ≤ src.length) :
    Scan.skipSpace src' (lo + d) (hi + d) = Scan.skipSpace src lo hi + d := by
  rw [Scan.skipSpace, Scan.skipSpace, h.slice hlo hhi, Nat.add_right_comm]

/-- What is left of a range behind the white space that it begins with. -/
theorem behindSpace {lo' hi' : Nat} (hlo' : lo' = lo + d) (hhi' : hi' = hi + d) (hlo : start ≤ lo)
    (hhi : hi ≤ src.length) : Scan.skipSpace src' lo' hi' = Scan.skipSpace src lo hi + d ∧
      src'.slice (Scan.skipSpace src lo hi + d) hi' = src.slice (Scan.skipSpace src lo hi) hi := by
  subst hlo' hhi'
  have hle := Scan.le_skipSpace src lo hi
  exact ⟨h.skipSpace hlo hhi, h.slice (by omega) hhi⟩

/-- The byte at an offset, or the closing brace at the end. -/
theorem getElem? (hi : start ≤ i) (hlen : i ≤ src.length) :
    src'[i + d]? = src[i]?.or (some closeBrace) := by
  rw [← List.head?_drop, h.drop_add hi hlen, h.seals.head?_append, List.head?_drop]

/-- A name ends alike in both texts. -/
theorem nameEnd (hlo : start ≤ lo) (hlen : lo ≤ src.length) :
    Scan.nameEnd src' (lo + d) = Scan.nameEnd src lo + d := by
  rw [Scan.nameEnd, Scan.nameEnd, h.drop_add hlo hlen, h.seals.nameLength_append,
    Nat.add_right_comm]

end Bytes

section Scanners

variable {i : Nat} {b : Byte} {rest : Text}

/-- Between braces, every bracket of the text is closed as before. -/
theorem closeTail (hin : Scan.InBraces src start i (i + 1)) (hdrop : src.drop i = b :: rest)
    {close : Byte} (hopen : b.closer? = some close) :
    Scan.closeTail (.group close) [] (rest ++ post) = Scan.closeTail (.group close) [] rest := by
  refine Option.ext fun n => ⟨fun hn => ?_, fun hn => Scan.closeTail_group_append hopen hn post⟩
  rcases h.seals.closeTail_group_append hopen hn with hwithin | rfl
  · exact hwithin
  · have hlength := congrArg List.length hdrop
    rw [List.length_drop, List.length_cons] at hlength
    refine absurd ?_ (h.kept i hin)
    rw [Scan.matching_of_closer (h.drop_cons (Nat.le_of_lt hin.start_lt) hdrop) hopen, hn,
      Option.map_some, Option.some.injEq]
    omega

/-- A template is cut into the same parts in both texts. -/
theorem templateParts (hi : start ≤ i) (hlen : i < src.length) :
    Scan.templateParts src' (i + d) = (Scan.templateParts src i).map (·.shift d) := by
  rw [Scan.templateParts, Scan.templateParts, Nat.add_right_comm, h.drop_add (by omega) hlen,
    h.seals.templateTail_append]

/-- A template ends alike in both texts. -/
theorem templateEnd (hi : start ≤ i) (hlen : i < src.length) :
    Scan.templateEnd src' (i + d) = (Scan.templateEnd src i).map (· + d) := by
  rw [Scan.templateEnd, Scan.templateEnd, h.templateParts hi hlen, Option.map_map, Option.map_map]
  rfl

/-- The segments between commas are the same. -/
theorem segmentsFrom {lo hi i : Nat} (hlo : start ≤ lo) (hin : Scan.InBraces src start i hi) :
    Scan.segmentsFrom src' (hi + d) (lo + d) (i + d) =
      (Scan.segmentsFrom src hi lo i).map (List.map (Span.shift d)) := by
  induction hn : hi - i using Nat.strongRecOn generalizing lo i with
  | ind n ih =>
    have hle := Nat.le_of_lt hin.start_lt
    have hhi := hin.hi_lt
    rw [Scan.segmentsFrom.eq_def, Scan.segmentsFrom.eq_def src]
    by_cases hlt : i < hi
    · have hstep {j k : Nat} (hjk : k = j + d) (hij : i < j) :
          Scan.segmentsFrom src' (hi + d) (lo + d) k =
            (Scan.segmentsFrom src hi lo j).map (List.map (Span.shift d)) :=
        hjk ▸ ih _ (by omega) hlo (hin.mono (Nat.le_of_lt hij) (Nat.le_refl _)) rfl
      rw [if_pos hlt, if_pos (Nat.add_lt_add_right hlt d)]
      cases hdrop : src.drop i with
      | nil => exact absurd (List.drop_eq_nil_iff.mp hdrop) (by omega)
      | cons b rest =>
        rw [h.drop_cons hle hdrop]
        dsimp only
        rw [h.seals.lead_append]
        cases hlead : Scan.lead b rest with
        | string quote =>
          dsimp only
          rw [h.seals.stringTail_append (Scan.isQuote_of_lead hlead).2]
          cases Scan.stringTail quote rest with
          | none => rfl
          | some k => exact hstep (by omega) (by omega)
        | template =>
          dsimp only
          rw [h.seals.closeTail_template]
          cases Scan.closeTail .template [] rest with
          | none => rfl
          | some k => exact hstep (by omega) (by omega)
        | group close =>
          dsimp only
          rw [h.closeTail (hin.mono (Nat.le_refl _) hlt) hdrop (Scan.closer?_of_lead hlead)]
          cases Scan.closeTail (.group close) [] rest with
          | none => rfl
          | some k => exact hstep (by omega) (by omega)
        | blockComment =>
          dsimp only
          rw [h.seals.commentTail_behind hlead]
          cases Scan.commentTail (rest.drop 1) with
          | none => rfl
          | some k => exact hstep (by omega) (by omega)
        | lineComment => exact hstep (by omega) (by omega)
        | plain =>
          dsimp only
          split
          · rw [Nat.add_right_comm, ih _ (by omega) (by omega)
              (hin.mono (Nat.le_succ _) (Nat.le_refl _)) rfl, Option.map_map, Option.map_map]
            rfl
          · exact hstep (by omega) (by omega)
    · rw [if_neg hlt, if_neg (by omega), h.slice hlo (Nat.le_of_lt hhi)]
      split <;> rfl

/-- Code between braces is cut at the same commas in both texts. -/
theorem segments {lo hi lo' hi' : Nat} (hlo' : lo' = lo + d) (hhi' : hi' = hi + d)
    (hin : Scan.InBraces src start lo hi) :
    Scan.segments src' lo' hi' = (Scan.segments src lo hi).map (List.map (Span.shift d)) := by
  subst hlo' hhi'
  exact h.segmentsFrom (Nat.le_of_lt hin.start_lt) hin

end Scanners

section Look

open Read

variable {lo hi i : Nat}

/-- What stands before an offset, back to the `<` that the text begins with. -/
theorem take_eq (hi : start < i) (hlen : i ≤ src.length) :
    ∃ t, src.take i = src.take start ++ Ascii.less :: t ∧
      src'.take (i + d) = src'.take (start + d) ++ Ascii.less :: t := by
  obtain ⟨k, rfl⟩ : ∃ k, i = start + (k + 1) := ⟨i - start - 1, by omega⟩
  have hdrop := Scan.drop_eq_cons_of_getElem? h.less
  have hshort : k + 1 ≤ (src.drop start).length := by
    rw [List.length_drop]
    omega
  refine ⟨(src.drop (start + 1)).take k, ?_, ?_⟩
  · rw [List.take_add, hdrop, List.take_succ_cons]
  · rw [Nat.add_right_comm, List.take_add, h.drop, List.take_append_of_le_length hshort, hdrop,
      List.take_succ_cons]

/-- Markup may start at the same places in both texts. -/
theorem markupMayStart (hi : start < i) (hlen : i ≤ src.length) :
    Scan.markupMayStart src' (i + d) = Scan.markupMayStart src i := by
  obtain ⟨t, ht, ht'⟩ := h.take_eq hi hlen
  rw [Scan.markupMayStart_behind_mark (by decide) ht',
    Scan.markupMayStart_behind_mark (by decide) ht]

/-- The same places are at the start of a line in both texts. -/
theorem atLineStart (hi : start < i) (hlen : i ≤ src.length) :
    Scan.atLineStart src' (i + d) = Scan.atLineStart src i := by
  obtain ⟨t, ht, ht'⟩ := h.take_eq hi hlen
  rw [Scan.atLineStart_behind_mark (by decide) ht', Scan.atLineStart_behind_mark (by decide) ht]

/-- An import starts at the same places in both texts. -/
theorem importStarts (hi : start < i) (hlen : i ≤ src.length) :
    Read.importStarts src' (lo + d) (i + d) = Read.importStarts src lo i := by
  unfold Read.importStarts
  rw [h.drop_add (Nat.le_of_lt hi) hlen, h.seals.isPrefixOf_append (by decide),
    h.atLineStart hi hlen]
  cases hword : importWord.isPrefixOf (src.drop i) with
  | false => rfl
  | true =>
    have hfit : i + 6 ≤ src.length := by
      have hle := (List.isPrefixOf_iff_prefix.mp hword).length_le
      have hsix : importWord.length = 6 := by decide
      rw [hsix, List.length_drop] at hle
      omega
    have hbehind : (src'[i + d + 6]?).any (fun b => b.isSpace || b == openBrace || b == star) =
        (src[i + 6]?).any fun b => b.isSpace || b == openBrace || b == star := by
      rw [Nat.add_right_comm, h.getElem? (by omega) hfit]
      cases src[i + 6]? <;> rfl
    have hbefore : src'[i + d - 1]? = src[i - 1]? := by
      rw [Nat.sub_add_comm (by omega), h.getElem? (by omega) (by omega),
        List.getElem?_eq_getElem (by omega)]
      rfl
    have hself : (i + d == lo + d) = (i == lo) := by
      rw [Bool.eq_iff_iff, beq_iff_eq, beq_iff_eq, Nat.add_right_cancel_iff]
    rw [hbehind, hbefore, hself]

/-- The same tag stands before a place in both texts. -/
theorem tagBefore (hlo : start ≤ lo) (hlen : i ≤ src.length) :
    Read.tagBefore src' (lo + d) (i + d) = Read.tagBefore src lo i := by
  rw [Read.tagBefore, Read.tagBefore, h.slice hlo hlen]

/-- An import statement is as long; the line break behind it belongs to the text. -/
theorem statementEnd (hlo : start ≤ lo) (hlen : lo ≤ src.length) (hhi : hi ≤ src.length) :
    Read.statementEnd src' (lo + d) (hi + d) = Read.statementEnd src lo hi + d := by
  have hbreak {mark : Nat} (hmark : start ≤ mark) (hmark' : mark ≤ src.length) {word : Text}
      (hword : closeBrace ∉ word) :
      word.isPrefixOf (src'.drop (mark + d)) = word.isPrefixOf (src.drop mark) := by
    rw [h.drop_add hmark hmark', h.seals.isPrefixOf_append hword]
  have hmove {mark : Nat} (hmark : start ≤ mark) (hmark' : mark ≤ src.length) :
      (if [carriageReturn, newline].isPrefixOf (src'.drop (mark + d)) then mark + d + 2
        else if [newline].isPrefixOf (src'.drop (mark + d)) then mark + d + 1 else mark + d) =
      (if [carriageReturn, newline].isPrefixOf (src.drop mark) then mark + 2
        else if [newline].isPrefixOf (src.drop mark) then mark + 1 else mark) + d := by
    rw [hbreak hmark hmark' (by decide), hbreak hmark hmark' (by decide)]
    split
    · exact Nat.add_right_comm ..
    · split
      · exact Nat.add_right_comm ..
      · rfl
  unfold Read.statementEnd
  dsimp only
  rw [h.slice hlo hhi, Nat.add_right_comm]
  have hslice : (src.slice lo hi).length ≤ src.length - lo := by
    rw [Text.slice, List.length_take, List.length_drop]
    exact Nat.min_le_right ..
  have hrun := (List.takeWhile_prefix (fun b => b == space || b == tab)
    (l := src.slice lo hi)).length_le
  generalize ((src.slice lo hi).takeWhile fun b => b == space || b == tab).length = n at hrun ⊢
  rw [h.slice (Nat.le_add_right_of_le hlo) hhi]
  split
  case isTrue hmark =>
    obtain ⟨rest, hrest⟩ := List.head?_eq_some_iff.mp hmark
    have hin := (List.getElem?_eq_some_iff.mp (Scan.getElem?_of_slice_eq_cons hrest)).1
    rw [Nat.add_right_comm (lo + n)]
    exact hmove (by omega) hin
  case isFalse => exact hmove (by omega) (by omega)

end Look

end Embeds

end JsxStyle
