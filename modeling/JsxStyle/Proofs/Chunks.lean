import JsxStyle.Proofs.Passing
import JsxStyle.Proofs.Seams

/-!
# Templates come apart without loss

Taking a template literal apart walks over it once.  What it has walked over since
the last hole is the chunk that it is in, and a hole is left at the bracket that the
search for brackets finds.  So chunks and holes, with what stands between them
put back, are the literal.

A backslash takes the next byte with it, whatever that is, also the first byte of a
character of several bytes.  The bytes behind that one are none that a template is
read by, so nothing is missed.  A byte is escaped if a run of backslashes of odd length
stands in front of it.

* `Text.isOpaque_of_isChunk`: what does not stand in a chunk;
* `Scan.templateTail_text`: the source of a template, from its chunks and holes;
* `Scan.matching_hole`: the bracket that closes a hole;
* `Scan.template_comes_apart`: the whole literal.
-/

namespace JsxStyle

open Ascii Scan

namespace Text

/-- Whether a byte that stands behind this text is escaped: the run of backslashes at its
end is of odd length. -/
def escapesNext (t : Text) : Bool :=
  (t.reverse.takeWhile (· == backslash)).length % 2 == 1

/-- Whether neither a backtick nor the opening of a hole stands in a text unescaped. -/
def IsOpaque (t : Text) : Prop :=
  ∀ before after, t = before ++ after → before.escapesNext = false →
    ¬[tick] <+: after ∧ ¬[dollar, openBrace] <+: after

variable {t : Text} {b : Byte}

theorem escapesNext_cons (hb : b ≠ backslash) (t : Text) :
    escapesNext (b :: t) = escapesNext t := by
  rw [escapesNext, escapesNext, List.reverse_cons, List.takeWhile_append]
  split
  case isTrue hall =>
    rw [List.takeWhile_cons_of_neg (by simpa using hb), List.append_nil, List.length_reverse] at *
    rw [hall]
  case isFalse => rfl

/-- An escaped byte does not escape the next one. -/
theorem escapesNext_escape (b : Byte) (t : Text) :
    escapesNext (backslash :: b :: t) = escapesNext t := by
  have heven : (([b] ++ [backslash]).takeWhile (· == backslash)).length % 2 = 0 := by
    by_cases hb : b = backslash <;> simp [hb]
  rw [escapesNext, escapesNext, List.reverse_cons, List.reverse_cons, List.append_assoc,
    List.takeWhile_append]
  split
  case isTrue hall => rw [List.length_append, Nat.add_mod, heven, Nat.add_zero, Nat.mod_mod, hall]
  case isFalse => rfl

/-- In a chunk of a template nothing stands unescaped that would end it. -/
theorem isOpaque_of_isChunk (h : t.isChunk = true) : t.IsOpaque := by
  induction t using escape_induction with
  | nil =>
    intro before after hsplit _
    obtain ⟨-, rfl⟩ := List.append_eq_nil_iff.mp hsplit.symm
    simp
  | lone => exact absurd h (by decide)
  | escape c rest ih =>
    rw [isChunk_escape] at h
    intro before after hsplit hescaped
    cases before with
    | nil =>
      obtain rfl : backslash :: c :: rest = after := hsplit
      simp only [List.cons_prefix_cons, not_and]
      exact ⟨fun h => absurd h (by decide), fun h => absurd h (by decide)⟩
    | cons b before =>
      rw [List.cons_append, List.cons.injEq] at hsplit
      obtain ⟨rfl, hsplit⟩ := hsplit
      cases before with
      | nil => exact absurd hescaped (by decide)
      | cons b' before =>
        rw [List.cons_append, List.cons.injEq] at hsplit
        obtain ⟨rfl, hsplit⟩ := hsplit
        rw [escapesNext_escape] at hescaped
        exact ih h before after hsplit hescaped
  | byte b rest hb ih =>
    have hend : ([] : Text).head? ≠ some openBrace := by simp
    obtain ⟨htick, hopen, hrest⟩ := Scan.plain_of_isChunk hb h hend
    intro before after hsplit hescaped
    cases before with
    | nil =>
      obtain rfl : b :: rest = after := hsplit
      simp only [List.cons_prefix_cons, not_and]
      refine ⟨fun h _ => htick h.symm, fun h hbrace => hopen ⟨h.symm, ?_⟩⟩
      obtain ⟨post, rfl⟩ := hbrace
      rfl
    | cons b' before =>
      simp only [List.cons_append, List.cons.injEq] at hsplit
      obtain ⟨rfl, hsplit⟩ := hsplit
      rw [escapesNext_cons hb] at hescaped
      exact ih hrest before after hsplit hescaped

end Text

theorem templateBody_append (bytes first : Text) (chunks holes : List Text) :
    templateBody ((bytes ++ first) :: chunks) holes =
      bytes ++ templateBody (first :: chunks) holes := by
  cases holes <;> simp only [templateBody, List.append_assoc]

namespace Scan

namespace TemplateParts

variable {src : Text} {pos : Nat} {t : Text}

/-- The chunks and holes of a template as the source writes them. -/
def body (src : Text) (p : TemplateParts) : Text :=
  templateBody p.chunks (p.holes.map (·.of src))

/-- A text begins with what is behind the opening backtick of a template. -/
structure Shown (src : Text) (pos : Nat) (t : Text) (p : TemplateParts) : Prop where
  text : ∃ rest, t = p.body src ++ tick :: rest
  stop : p.stop = pos + (p.body src).length + 1
  chunks : ∀ chunk ∈ p.chunks, chunk.isChunk = true

/-- Bytes that are put in front of the first chunk stand in front of the text. -/
theorem Shown.extend (bytes : Text) {p : TemplateParts} (h : p.Shown src (pos + bytes.length) t)
    (hne : p.chunks ≠ [])
    (hbytes : ∀ first : Text, first <+: t → first.isChunk = true →
      (bytes ++ first).isChunk = true) :
    (p.extend bytes).Shown src pos (bytes ++ t) := by
  obtain ⟨first, chunks, hchunks⟩ := List.exists_cons_of_ne_nil hne
  have hbody : (p.extend bytes).body src = bytes ++ p.body src := by
    rw [body, body, extend_holes, hchunks, ← templateBody_append]
    simp only [TemplateParts.extend, hchunks]
  have hall := h.chunks
  rw [hchunks, List.forall_mem_cons] at hall
  obtain ⟨rest, hrest⟩ := h.text
  have hprefix : first <+: t := by
    rw [hrest, body, hchunks, ← List.append_nil first, templateBody_append, List.append_nil,
      List.append_assoc]
    exact List.prefix_append _ _
  refine ⟨⟨rest, by rw [hbody, hrest, List.append_assoc]⟩, ?_, ?_⟩
  · rw [extend_stop, h.stop, hbody, List.length_append, Nat.add_assoc pos]
  · simp only [TemplateParts.extend, hchunks]
    exact List.forall_mem_cons.mpr ⟨hbytes first hprefix hall.1, hall.2⟩

/-- A hole stands in front of the text between its braces. -/
theorem Shown.consHole (hole : Span) {p : TemplateParts} {k : Nat} (h : p.Shown src (pos + k) t)
    (hk : (hole.of src).length + 3 = k) :
    (p.consHole hole).Shown src pos
      (dollar :: openBrace :: (hole.of src ++ closeBrace :: t)) := by
  have hbody : (p.consHole hole).body src =
      dollar :: openBrace :: (hole.of src ++ closeBrace :: p.body src) := rfl
  obtain ⟨rest, hrest⟩ := h.text
  refine ⟨⟨rest, by rw [hbody, hrest]; simp⟩, ?_, ?_⟩
  · rw [hbody]
    show p.stop = _
    simp only [h.stop, ← hk, List.length_cons, List.length_append]
    omega
  · exact List.forall_mem_cons.mpr ⟨rfl, h.chunks⟩

end TemplateParts

/-- A template stands in the source as its chunks and holes make it. -/
theorem templateTail_text {src : Text} {pos : Nat} {p : TemplateParts}
    (h : templateTail pos (src.drop pos) = some p) : p.Shown src pos (src.drop pos) := by
  obtain ⟨t, ht⟩ : ∃ t, src.drop pos = t := ⟨_, rfl⟩
  rw [ht] at h ⊢
  have hdrop {pos : Nat} {b : Byte} {rest : Text} (ht : src.drop pos = b :: rest) (k : Nat) :
      src.drop (pos + (k + 1)) = rest.drop k := by
    rw [← (getElem?_of_drop_eq_cons ht).2, List.drop_drop, Nat.add_assoc, Nat.add_comm k 1]
  replace h := templateTrace h
  induction h with
  | closing => exact ⟨⟨_, rfl⟩, rfl, by simp [Text.isChunk]⟩
  | @escape pos c _ _ htrace ih =>
    exact TemplateParts.Shown.extend [backslash, c] (ih (hdrop ht 1)) htrace.chunks_ne_nil
      fun first _ hfirst => hfirst
  | @hole pos n rest p hclose _ ih =>
    obtain ⟨m, rfl, hm⟩ := getElem?_closeTail rfl hclose
    have hhole : (Span.mk (pos + 2) (pos + 1 + (m + 1))).of src = rest.take m := by
      have hwidth : pos + 1 + (m + 1) - (pos + 2) = m := by omega
      rw [Span.of, Text.slice, hdrop ht 1, hwidth]
      rfl
    obtain ⟨hlt, hbrace⟩ := List.getElem?_eq_some_iff.mp hm
    have hsplit : rest = rest.take m ++ closeBrace :: rest.drop (m + 1) := by
      have hcons := List.drop_eq_getElem_cons hlt
      rw [hbrace] at hcons
      exact (List.take_append_drop m rest).symm.trans (congrArg (rest.take m ++ ·) hcons)
    have hbehind := ih (by rw [Nat.add_assoc, Nat.add_comm 2]; exact hdrop ht (m + 2))
    have hshown := TemplateParts.Shown.consHole ⟨pos + 2, pos + 1 + (m + 1)⟩
      (k := 2 + (m + 1)) (by rw [← Nat.add_assoc]; exact hbehind)
      (by rw [hhole, List.length_take_of_le (Nat.le_of_lt hlt)]; omega)
    rw [hhole, ← hsplit] at hshown
    exact hshown
  | @byte pos b rest p hslash htick hopen htrace ih =>
    refine TemplateParts.Shown.extend [b] (ih (hdrop ht 0)) htrace.chunks_ne_nil
      fun first hprefix hfirst => ?_
    have hhole : (b == dollar && first.head? == some openBrace) = false := by
      refine Bool.eq_false_iff.mpr fun hboth => hopen ?_
      rw [Bool.and_eq_true, beq_iff_eq, beq_iff_eq] at hboth
      obtain ⟨more, rfl⟩ := hprefix
      exact ⟨hboth.1, by rw [List.head?_append, hboth.2]; rfl⟩
    rw [List.singleton_append, Text.isChunk.eq_def]
    simp only [if_neg hslash, hhole, hfirst, bne_iff_ne.mpr htick, Bool.not_false, Bool.and_true]

/-- A template stands in the source between its backticks. -/
theorem slice_template {src : Text} {pos : Nat} {parts : TemplateParts}
    (htick : src[pos]? = some tick) (hparts : templateParts src pos = some parts) :
    src.slice pos parts.stop = tick :: (parts.body src ++ [tick]) := by
  obtain ⟨⟨rest, htext⟩, hstop, -⟩ := templateTail_text hparts
  obtain ⟨hlt, hbyte⟩ := List.getElem?_eq_some_iff.mp htick
  have hwidth : parts.stop - pos = (parts.body src).length + 1 + 1 := by omega
  rw [Text.slice, List.drop_eq_getElem_cons hlt, hbyte, htext, hwidth, List.take_succ_cons,
    List.append_cons, List.take_left' (by simp)]

end Scan

namespace Scan

/-- A hole ends where the brace that opens it is closed. -/
theorem matching_hole {src : Text} {pos : Nat} {p : TemplateParts}
    (h : templateTail pos (src.drop pos) = some p) :
    ∀ hole ∈ p.holes, matching src (hole.lo - 1) = some hole.hi := by
  generalize ht : src.drop pos = t at h
  replace h := templateTrace h
  induction h with
  | closing => simp
  | escape _ ih =>
    rw [TemplateParts.extend_holes]
    exact ih (by rw [← List.drop_drop, ht]; rfl)
  | @hole pos n rest p hclose _ ih =>
    have hrest := (getElem?_of_drop_eq_cons ht).2
    refine List.forall_mem_cons.mpr ⟨?_, ih ?_⟩
    · show matching src (pos + 1) = some (pos + 1 + n)
      rw [matching, hrest]
      exact congrArg (Option.map (pos + 1 + ·)) hclose
    · rw [← List.drop_drop, ← List.drop_drop, ht]
      rfl
  | byte _ _ _ _ ih =>
    rw [TemplateParts.extend_holes]
    exact ih (getElem?_of_drop_eq_cons ht).2

/-- **A template comes apart without loss.**  There is one chunk more than holes, the chunks
with the holes between them are what the source has between the backticks, every hole ends
where its brace is closed, and no chunk has an end of the chunk in it. -/
theorem template_comes_apart {src : Text} {pos : Nat} {p : TemplateParts}
    (htick : src[pos]? = some tick) (h : templateParts src pos = some p) :
    p.chunks.length = p.holes.length + 1 ∧
      tick :: (templateBody p.chunks (p.holes.map (·.of src)) ++ [tick]) = src.slice pos p.stop ∧
      (∀ hole ∈ p.holes, 0 < hole.lo ∧ matching src (hole.lo - 1) = some hole.hi) ∧
      ∀ chunk ∈ p.chunks, chunk.IsOpaque :=
  ⟨length_chunks_of_templateTail h, (slice_template htick h).symm,
    fun hole hhole =>
      ⟨Nat.lt_of_lt_of_le (Nat.succ_pos _) ((templateTail_bounds h).2.2 hole hhole).1,
      matching_hole h hole hhole⟩,
    fun chunk hchunk => Text.isOpaque_of_isChunk ((templateTail_text h).chunks chunk hchunk)⟩

/-- Escaped characters, a hole with a group in it, and a template in a hole. -/
theorem nested_template_comes_apart :
    ∃ (src : Text) (p : TemplateParts),
      src = Text.ofString "a\x60\\\x60\\é$\x7bf(\x7b\x7d)\x7d\\\\$\x7b\x60\x7d\x60\x7d\x60;" ∧
      src[1]? = some tick ∧ templateParts src 1 = some p ∧ p.chunks.length = 3 ∧
      p.holes.map (·.of src) = [Text.ofString "f(\x7b\x7d)", Text.ofString "\x60\x7d\x60"] ∧
      (p.chunks.length = p.holes.length + 1 ∧
        tick :: (templateBody p.chunks (p.holes.map (·.of src)) ++ [tick]) =
          src.slice 1 p.stop ∧
        (∀ hole ∈ p.holes, 0 < hole.lo ∧ matching src (hole.lo - 1) = some hole.hi) ∧
        ∀ chunk ∈ p.chunks, chunk.IsOpaque) := by
  obtain ⟨src, hsrc⟩ : ∃ src : Text, src =
      Text.ofString "a\x60\\\x60\\é$\x7bf(\x7b\x7d)\x7d\\\\$\x7b\x60\x7d\x60\x7d\x60;" := ⟨_, rfl⟩
  have hrun : (src[1]? = some tick ∧ (templateParts src 1).any fun p =>
      p.chunks.length = 3 ∧ p.holes.map (·.of src) =
        [Text.ofString "f(\x7b\x7d)", Text.ofString "\x60\x7d\x60"]) := by
    subst hsrc
    decide +kernel
  obtain ⟨htick, hparts⟩ := hrun
  obtain ⟨p, hp, hfacts⟩ := (Option.any_eq_true _ _).mp hparts
  obtain ⟨hcount, hholes⟩ := of_decide_eq_true hfacts
  exact ⟨src, p, hsrc, htick, hp, hcount, hholes, template_comes_apart htick hp⟩

end Scan

end JsxStyle
