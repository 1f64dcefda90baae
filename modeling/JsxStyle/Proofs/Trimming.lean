import JsxStyle.Proofs.Passing
import JsxStyle.Proofs.Seams

/-!
# Trimming at a seam

White space is recognised by its bytes, up to three of them.  Where a text is put
together from two, the end of the first one and the beginning of the second could
make a white-space character that stands in neither.  They do not if the first one
ends in a character of one byte, or if the second one begins with a character and
not within one.  Then white space is white space in both, and trimming the whole is
trimming the second text, and the first one only if nothing is left of the second.

* `isBlank_append`: a text is white space if its two parts are;
* `trimEnd_append_blank`, `trimEnd_append_of_parted`: what trimming leaves of the first;
* `trimEnd_concat`: a byte that is not white space ends a text for good;
* `trim_parts`: a text is what is left of it, between white space;
* `Trimmed.trim_eq`: trimming takes white space off a text that has none at its ends.
-/

namespace JsxStyle

open Ascii

namespace Text

/-- No white-space character reaches over the seam between two texts: the first one
ends in a character of one byte, or the second one begins with a character. -/
def Parted (p q : Text) : Prop :=
  (∀ a ∈ p.getLast?, a.isAscii = true) ∨ ∀ b ∈ q.head?, b.isContinuation = false

/-- White space of two bytes is one character. -/
theorem parts_of_isBlankPair {a b : Byte} (h : isBlankPair a b = true) :
    a.isAscii = false ∧ b.isContinuation = true := by
  simp only [isBlankPair, Bool.and_eq_true, Bool.or_eq_true, beq_iff_eq] at h
  obtain ⟨rfl, rfl | rfl⟩ := h <;> decide

/-- White space of three bytes is one character. -/
theorem parts_of_isBlankTriple {a b c : Byte} (h : isBlankTriple a b c = true) :
    a.isAscii = false ∧ b.isAscii = false ∧ b.isContinuation = true ∧ c.isContinuation = true := by
  simp only [isBlankTriple, Bool.and_eq_true, Bool.or_eq_true, beq_iff_eq, decide_eq_true_eq] at h
  obtain ((⟨⟨rfl, rfl⟩, rfl⟩ | ⟨⟨rfl, rfl⟩, hc⟩) | ⟨⟨rfl, rfl⟩, rfl⟩) | ⟨⟨rfl, rfl⟩, rfl⟩ := h
  · decide
  · refine ⟨rfl, rfl, rfl, ?_⟩
    rw [Byte.isContinuation_iff]
    obtain ((⟨hlo, hhi⟩ | rfl) | rfl) | rfl := hc
    · have hlo := UInt8.le_iff_toNat_le.mp hlo
      have hhi := UInt8.le_iff_toNat_le.mp hhi
      simp only [UInt8.reduceToNat] at hlo hhi
      omega
    all_goals decide
  · decide
  · decide

/-- No character reaches over the seam between parted texts. -/
theorem Parted.not_across {p q : Text} {a b : Byte} (h : Parted p (b :: q))
    (ha : p.getLast? = some a) : ¬(a.isAscii = false ∧ b.isContinuation = true) := by
  rintro ⟨hascii, hcontinuation⟩
  rcases h with h | h
  · exact Bool.false_ne_true (hascii.symm.trans (h a ha))
  · exact Bool.false_ne_true ((h b rfl).symm.trans hcontinuation)

/-- What stands at the front of a text is white space whatever follows. -/
theorem leadingBlank_append {p q : Text} (hp : p ≠ []) (h : Parted p q) :
    leadingBlank (p ++ q) = leadingBlank p := by
  have hpair {a b : Byte} {q' : Text} (h : Parted [a] (b :: q')) : isBlankPair a b = false :=
    Bool.eq_false_iff.mpr fun hblank => h.not_across rfl (parts_of_isBlankPair hblank)
  match p, q with
  | [], _ => exact absurd rfl hp
  | [a], [] => rfl
  | [a], [b] =>
    simp only [List.singleton_append, leadingBlank, hpair h, Bool.false_eq_true, if_false]
  | [a], b :: c :: q' =>
    have htriple : isBlankTriple a b c = false := by
      refine Bool.eq_false_iff.mpr fun hblank => h.not_across rfl ?_
      obtain ⟨ha, -, hb, -⟩ := parts_of_isBlankTriple hblank
      exact ⟨ha, hb⟩
    simp only [List.singleton_append, leadingBlank, hpair h, htriple, Bool.false_eq_true, if_false]
  | [a, b], [] => rfl
  | [a, b], c :: q' =>
    have htriple : isBlankTriple a b c = false := by
      refine Bool.eq_false_iff.mpr fun hblank => h.not_across rfl ?_
      obtain ⟨-, hb, -, hc⟩ := parts_of_isBlankTriple hblank
      exact ⟨hb, hc⟩
    simp only [List.cons_append, List.nil_append, leadingBlank, htriple, Bool.false_eq_true,
      if_false]
  | a :: b :: c :: p', q => rfl

/-- The end of a parted text is parted from what follows. -/
theorem Parted.suffix {p q u : Text} (h : Parted u q) (hp : p <:+ u) : Parted p q := by
  refine h.imp (fun h a ha => h a ?_) id
  obtain ⟨w, rfl⟩ := hp
  rw [Option.mem_def, List.getLast?_append, Option.mem_def.mp ha]
  rfl

/-- A text is white space if and only if its two parts are. -/
theorem isBlank_append {p q : Text} (h : Parted p q) :
    isBlank (p ++ q) = (isBlank p && isBlank q) := by
  unfold isBlank
  induction p using blank_induction with
  | visible p hnone =>
    rw [trimStart_of_visible hnone]
    cases p with
    | nil => exact (Bool.true_and _).symm
    | cons b rest =>
      rw [trimStart, leadingBlank_append (List.cons_ne_nil b rest) h, if_pos hnone]
      rfl
  | blank p hsome ih =>
    have hp : p ≠ [] := by
      rintro rfl
      exact hsome rfl
    rw [trimStart, leadingBlank_append hp h, if_neg hsome, trimStart_of_blank hsome,
      ← ih (h.suffix (List.drop_suffix _ p)),
      List.drop_append_of_le_length (leadingBlank_le_length p)]

/-- What is no white space of one byte begins none, unless it leads a character. -/
theorem leadingBlank_of_visible {b : Byte} (hblank : isBlankByte b = false)
    (hb : b.isAscii = true ∨ b.isContinuation = true) (rest : Text) :
    leadingBlank (b :: rest) = 0 := by
  have hlead : ∀ b : Byte, b.isAscii = true ∨ b.isContinuation = true →
      b ∉ [0xC2, 0xE1, 0xE2, 0xE3] := Scan.forall_byte (by decide +kernel)
  exact Scan.leadingBlank_cons_eq_zero hblank (hlead b hb) rest

/-- A text is not blank if its first byte is visible. -/
theorem isBlank_cons_eq_false {b : Byte} (hblank : isBlankByte b = false)
    (hb : b.isAscii = true ∨ b.isContinuation = true) (rest : Text) :
    isBlank (b :: rest) = false := by
  rw [isBlank, trimStart, if_pos (leadingBlank_of_visible hblank hb rest)]
  rfl

/-- A byte that continues a character is no white space by itself. -/
theorem isBlankByte_of_isContinuation :
    ∀ b : Byte, b.isContinuation = true → isBlankByte b = false :=
  Scan.forall_byte (by decide +kernel)

/-- White space does not begin within a character. -/
theorem parted_of_isBlank (p : Text) {q : Text} (h : isBlank q = true) : Parted p q := by
  refine Or.inr fun b hb => Bool.eq_false_iff.mpr fun hcontinuation => ?_
  obtain ⟨rest, rfl⟩ := List.head?_eq_some_iff.mp hb
  have hvisible := isBlankByte_of_isContinuation b hcontinuation
  rw [isBlank_cons_eq_false hvisible (Or.inr hcontinuation) rest] at h
  exact Bool.false_ne_true h

/-- What white space stands in front of begins with a character as well. -/
theorem Parted.behind_blank {p q r : Text} (h : Parted p r) (hq : isBlank q = true) :
    Parted p (q ++ r) := by
  cases q with
  | nil => exact h
  | cons b rest => exact (parted_of_isBlank p hq).imp id fun h c hc => h c hc

/-- White space at the front is white space whatever follows it. -/
theorem leadingBlank_append_of_ne_zero {t : Text} (h : leadingBlank t ≠ 0) (x : Text) :
    leadingBlank (t ++ x) = leadingBlank t := by
  rcases t with _ | ⟨a, _ | ⟨b, _ | ⟨c, rest⟩⟩⟩
  · exact absurd rfl h
  · have ha : isBlankByte a = true := by simpa [leadingBlank] using h
    rw [List.singleton_append, leadingBlank_of_isBlankByte ha, leadingBlank_of_isBlankByte ha]
  · rcases x with _ | ⟨c, x⟩
    · rfl
    · simp only [leadingBlank] at h
      simp only [List.cons_append, List.nil_append, leadingBlank]
      split_ifs at h ⊢ <;> simp_all
  · rfl

/-- The white space in front of a text is white space throughout. -/
theorem leadingBlank_take (t : Text) :
    leadingBlank (t.take (leadingBlank t)) = leadingBlank t := by
  fun_cases leadingBlank t <;> simp_all [leadingBlank]

/-- White space in front goes when a text is trimmed. -/
theorem trimStart_append_blank {g : Text} (hg : isBlank g = true) (x : Text) :
    trimStart (g ++ x) = trimStart x := by
  unfold isBlank at hg
  induction g using blank_induction with
  | visible g hnone =>
    rw [trimStart_of_visible hnone] at hg
    obtain rfl := List.isEmpty_iff.mp hg
    rfl
  | blank g hsome ih =>
    rw [trimStart_of_blank hsome] at hg
    rw [trimStart, leadingBlank_append_of_ne_zero hsome, if_neg hsome,
      List.drop_append_of_le_length (leadingBlank_le_length g), ih hg]

theorem isBlank_nil : isBlank [] = true := by
  rw [isBlank, trimStart]
  rfl

/-- White space in front of white space. -/
theorem isBlank_append_isBlank {p q : Text} (hp : isBlank p = true) (hq : isBlank q = true) :
    isBlank (p ++ q) = true := by
  rw [isBlank_append (parted_of_isBlank p hq), hp, hq]
  rfl

/-- A text is white space, the text trimmed, and white space. -/
theorem trim_parts (t : Text) :
    ∃ before after, isBlank before = true ∧ isBlank after = true ∧
      t = before ++ t.trim ++ after := by
  have hstart : ∃ before, isBlank before = true ∧ t = before ++ trimStart t := by
    induction t using blank_induction with
    | visible t hnone =>
      rw [trimStart_of_visible hnone]
      exact ⟨[], isBlank_nil, rfl⟩
    | blank t hsome ih =>
      rw [trimStart_of_blank hsome]
      obtain ⟨before, hbefore, ht⟩ := ih
      refine ⟨t.take (leadingBlank t) ++ before, ?_, ?_⟩
      · have hlead := leadingBlank_take t
        have hlength : (t.take (leadingBlank t)).length = leadingBlank t :=
          List.length_take_of_le (leadingBlank_le_length t)
        rw [isBlank, trimStart, leadingBlank_append_of_ne_zero (by rw [hlead]; exact hsome), hlead,
          if_neg hsome, List.drop_left' hlength]
        exact hbefore
      · rw [List.append_assoc, ← ht, List.take_append_drop]
  have hend (u : Text) : ∃ after, isBlank after = true ∧ u = trimEnd u ++ after := by
    induction u with
    | nil => exact ⟨[], isBlank_nil, rfl⟩
    | cons b rest ih =>
      rw [trimEnd]
      split
      case isTrue hblank => exact ⟨b :: rest, hblank, rfl⟩
      case isFalse =>
        obtain ⟨after, hafter, hrest⟩ := ih
        exact ⟨after, hafter, by rw [List.cons_append, ← hrest]⟩
  obtain ⟨before, hbefore, ht⟩ := hstart
  obtain ⟨after, hafter, hu⟩ := hend (trimStart t)
  refine ⟨before, after, hbefore, hafter, ?_⟩
  rw [trim, List.append_assoc, ← hu]
  exact ht

/-- Trimming the end leaves the beginning of a text. -/
theorem trimEnd_prefix (u : Text) : u.trimEnd <+: u := by
  induction u with
  | nil => exact List.prefix_rfl
  | cons b rest ih =>
    rw [trimEnd]
    split
    · exact List.nil_prefix
    · exact List.cons_prefix_cons.mpr ⟨rfl, ih⟩

/-- Trimming takes white space off the end. -/
theorem trimEnd_append_blank (u : Text) {v : Text} (hv : isBlank v = true) :
    trimEnd (u ++ v) = trimEnd u := by
  induction u with
  | nil =>
    cases v with
    | nil => rfl
    | cons b rest => rw [List.nil_append, trimEnd, trimEnd, if_pos hv]
  | cons b rest ih =>
    have hblank : isBlank (b :: rest ++ v) = isBlank (b :: rest) := by
      rw [isBlank_append (parted_of_isBlank _ hv), hv, Bool.and_true]
    rw [List.cons_append] at hblank ⊢
    rw [trimEnd, hblank, ih, trimEnd]

/-- Trimming does not go past what is not white space. -/
theorem trimEnd_append_of_parted {u v : Text} (h : Parted u v)
    (hv : isBlank v = false) : trimEnd (u ++ v) = u ++ trimEnd v := by
  induction u with
  | nil => rfl
  | cons b rest ih =>
    have hblank : isBlank (b :: rest ++ v) = false := by
      rw [isBlank_append h, hv, Bool.and_false]
    rw [List.cons_append] at hblank ⊢
    rw [trimEnd, hblank, ih (h.suffix (List.suffix_cons b rest))]
    rfl

/-- A byte that is not white space ends a text for good. -/
theorem trimEnd_concat (u : Text) {c : Byte} (hascii : c.isAscii = true)
    (hc : isBlankByte c = false) : trimEnd (u ++ [c]) = u ++ [c] := by
  have hparted : Parted u [c] := Or.inr fun b hb => by
    obtain rfl : c = b := Option.some.inj hb
    exact Byte.not_isContinuation_of_isAscii hascii
  have hblank : isBlank [c] = false := isBlank_cons_eq_false hc (Or.inl hascii) []
  rw [trimEnd_append_of_parted hparted hblank, trimEnd, hblank]
  rfl

/-- A byte of white space is white space by itself, or no character by itself. -/
theorem isBlankByte_of_mem {t : Text} (h : isBlank t = true) {b : Byte} (hb : b ∈ t) :
    isBlankByte b = true ∨ b.isAscii = false := by
  have hwithin {b : Byte} (hb : b.isContinuation = true) : b.isAscii = false :=
    Bool.eq_false_iff.mpr fun hascii =>
      Bool.false_ne_true ((Byte.not_isContinuation_of_isAscii hascii).symm.trans hb)
  have hlead (t : Text) {b : Byte} (hb : b ∈ t.take (leadingBlank t)) :
      isBlankByte b = true ∨ b.isAscii = false := by
    obtain hnone | ⟨a, rest, rfl, ha, hone⟩ | ⟨a, c, rest, rfl, hpair, htwo⟩ |
      ⟨a, c, d, rest, rfl, htriple, hthree⟩ := leadingBlank_cases t
    · simp [hnone] at hb
    · obtain rfl : b = a := by simpa [hone] using hb
      exact Or.inl ha
    · obtain ⟨hfirst, hsecond⟩ := parts_of_isBlankPair hpair
      obtain rfl | rfl : b = a ∨ b = c := by simpa [htwo] using hb
      exacts [Or.inr hfirst, Or.inr (hwithin hsecond)]
    · obtain ⟨hfirst, hsecond, -, hthird⟩ := parts_of_isBlankTriple htriple
      obtain rfl | rfl | rfl : b = a ∨ b = c ∨ b = d := by simpa [hthree] using hb
      exacts [Or.inr hfirst, Or.inr hsecond, Or.inr (hwithin hthird)]
  unfold isBlank at h
  induction t using blank_induction with
  | visible t hnone =>
    rw [trimStart_of_visible hnone] at h
    exact absurd hb (by simp [List.isEmpty_iff.mp h])
  | blank t hsome ih =>
    rw [trimStart_of_blank hsome] at h
    rw [← List.take_append_drop (leadingBlank t) t] at hb
    exact (List.mem_append.mp hb).elim (hlead t) (ih h)

/-- A text with no white space at its ends. -/
structure Trimmed (t : Text) : Prop where
  ne_nil : t ≠ []
  lead : leadingBlank t = 0
  trail : trimEnd t = t

/-- A text ends as a part of it does that has no white space at its end. -/
theorem trimEnd_append_self {u v : Text} (h : Parted u v) (hv : v ≠ []) (htrail : trimEnd v = v) :
    trimEnd (u ++ v) = u ++ v := by
  have hblank : isBlank v = false := by
    refine Bool.eq_false_iff.mpr fun hblank => hv ?_
    cases v with
    | nil => rfl
    | cons b rest => rw [← htrail, trimEnd, if_pos hblank]
  rw [trimEnd_append_of_parted h hblank, htrail]

/-- A text that begins with no white space, and one behind it that ends with none. -/
theorem trimmed_append {u v : Text} (h : Parted u v) (hu : u ≠ []) (hlead : leadingBlank u = 0)
    (hv : v ≠ []) (htrail : trimEnd v = v) : Trimmed (u ++ v) where
  ne_nil := List.append_ne_nil_of_left_ne_nil hu v
  lead := by rw [leadingBlank_append hu h, hlead]
  trail := trimEnd_append_self h hv htrail

/-- Nothing is left of a blank text. -/
theorem trim_of_isBlank {t : Text} (h : isBlank t = true) : t.trim = [] := by
  rw [trim, List.isEmpty_iff.mp h]
  rfl

/-- White space around a text goes when it is trimmed. -/
theorem Trimmed.trim_eq {t : Text} (h : Trimmed t) {before after : Text}
    (hbefore : isBlank before = true) (hafter : isBlank after = true) :
    (before ++ t ++ after).trim = t := by
  rw [trim, List.append_assoc, trimStart_append_blank hbefore, trimStart,
    leadingBlank_append h.ne_nil (parted_of_isBlank t hafter), if_pos h.lead,
    trimEnd_append_blank t hafter, h.trail]

/-- There is nothing to trim off such a text. -/
theorem Trimmed.trim_self {t : Text} (h : Trimmed t) : t.trim = t := by
  rw [trim, trimStart, if_pos h.lead, h.trail]

end Text

end JsxStyle
