import JsxStyle.Proofs.Balanced

/-!
# What stands behind a text

A scanner that comes to an end within a text has looked at nothing behind that end, so
it comes to the same end whatever stands behind the text.  One that does not come to an
end goes on in what stands there, and may find one.

It finds none in a text that begins with a closing brace and has no quote, backtick or
star in it, such as the end of an expression and a closing tag: no string, template or
comment ends there, and the brace does not turn the byte before it into anything else.
Only a bracket that the text leaves open can be closed by it.

* `closeTail_eq_some_iff`: what the search for the end of a construct returns;
* `closeTail_trailing`, `matching_append_eq_some_iff`: the same end, whatever stands behind it;
* `Seals`: a text behind which no literal ends, with one lemma for each scanner;
* `Seals.templateTail_append`: a template is taken apart in the same way further on.
-/

namespace JsxStyle

open Ascii

/-- The same range, `d` bytes further on. -/
def Span.shift (d : Nat) (s : Span) : Span :=
  ⟨s.lo + d, s.hi + d⟩

namespace Scan

variable {t post : Text}

/-! ### The same end -/

/-- A frame that something opens. -/
def Frame.Opened : Frame → Prop
  | .group close => ∃ opening : Byte, opening.closer? = some close
  | .template => True

/-- A construct ends behind what it may hold and the byte that closes it. -/
theorem closeTail_eq_some_iff {top : Frame} (htop : top.Opened) {n : Nat} :
    closeTail top [] t = some n ↔
      ∃ u post, t = u ++ top.closing :: post ∧ n = u.length + 1 ∧ top.Holds u := by
  constructor
  · intro h
    obtain ⟨v, post, rfl, rfl, hv⟩ := unwinds_of_closeTail h
    cases hv with
    | @last _ u hu => exact ⟨u, post, by simp, by simp, hu⟩
  · rintro ⟨u, post, rfl, rfl, hu⟩
    cases top with
    | group close =>
      obtain ⟨opening, hopen⟩ := htop
      rw [Frame.closing, (AreItems.passesBefore hu).closeTail_eq hopen, leave, Option.map_some,
        Nat.add_comm]
    | template =>
      rw [Frame.closing, IsTemplateBody.closes hu [] post, leave, Option.map_some, Nat.add_comm]

/-- A construct that ends within a text ends there whatever stands behind the text. -/
theorem closeTail_trailing {top : Frame} (htop : top.Opened) {n : Nat} (hn : n ≤ t.length)
    (post : Text) : closeTail top [] (t ++ post) = some n ↔ closeTail top [] t = some n := by
  rw [closeTail_eq_some_iff htop, closeTail_eq_some_iff htop]
  constructor
  · rintro ⟨u, behind, heq, rfl, hu⟩
    have htake : t.take (u.length + 1) = u ++ [top.closing] := by
      rw [← List.take_append_of_le_length hn, heq, ← List.singleton_append, ← List.append_assoc,
        List.take_left' (by simp)]
    refine ⟨u, t.drop (u.length + 1), ?_, rfl, hu⟩
    rw [← List.singleton_append, ← List.append_assoc, ← htake, List.take_append_drop]
  · rintro ⟨u, behind, rfl, rfl, hu⟩
    exact ⟨u, behind ++ post, by simp, rfl, hu⟩

/-- A bracket that a text closes is closed whatever stands behind the text. -/
theorem closeTail_group_append {b close : Byte} (hopen : b.closer? = some close) {n : Nat}
    (hn : closeTail (.group close) [] t = some n) (post : Text) :
    closeTail (.group close) [] (t ++ post) = some n := by
  have hopened : (Frame.group close).Opened := ⟨b, hopen⟩
  exact (closeTail_trailing hopened (closeTail_bounds hn).2 post).mpr hn

/-- A text without the byte that closes a construct does not close it. -/
theorem closeTail_append_of_not_mem {top : Frame} (htop : top.Opened) (h : top.closing ∉ post) :
    closeTail top [] (t ++ post) = closeTail top [] t := by
  refine Option.ext fun n => ?_
  by_cases hn : n ≤ t.length
  · exact closeTail_trailing htop hn post
  · refine iff_of_false (fun hbehind => ?_) fun hwithin => hn (closeTail_bounds hwithin).2
    obtain ⟨m, rfl, hm⟩ := getElem?_closeTail rfl hbehind
    rw [List.getElem?_append_right (by omega)] at hm
    exact h (List.mem_of_getElem? hm)

/-- A bracket is closed at the same place whatever stands behind that place. -/
theorem matching_append_eq_some_iff {i n : Nat} (hn : n < t.length) (post : Text) :
    matching (t ++ post) i = some n ↔ matching t i = some n := by
  have hbehind : (t ++ post).drop i = t.drop i ++ post.drop (i - t.length) := List.drop_append
  cases hdrop : t.drop i with
  | nil =>
    have hout : t.length ≤ i := List.drop_eq_nil_iff.mp hdrop
    refine iff_of_false (fun h => ?_) (by simp [matching, hdrop])
    unfold matching at h
    split at h
    · exact absurd h (by simp)
    · obtain ⟨close, -, h⟩ := Option.bind_eq_some_iff.mp h
      obtain ⟨k, -, rfl⟩ := Option.map_eq_some_iff.mp h
      omega
  | cons b rest =>
    have hlength := congrArg List.length hdrop
    rw [List.length_drop, List.length_cons] at hlength
    have hnone : i - t.length = 0 := by omega
    rw [hdrop, hnone, List.drop_zero, List.cons_append] at hbehind
    rw [matching, matching, hdrop, hbehind]
    dsimp only
    cases hopen : b.closer? with
    | none => rfl
    | some close =>
      have hopened : (Frame.group close).Opened := ⟨b, hopen⟩
      simp only [Option.bind_some, Option.map_eq_some_iff]
      refine exists_congr fun k => and_congr_left fun hk => ?_
      exact closeTail_trailing hopened (by omega) post

/-- A bracket is closed at the same distance whatever stands before it. -/
theorem matching_append_length (pre t : Text) (i : Nat) :
    matching (pre ++ t) (pre.length + i) = (matching t i).map (pre.length + ·) := by
  rw [matching, matching, List.drop_length_add_append]
  cases t.drop i with
  | nil => rfl
  | cons b rest =>
    dsimp only
    cases b.closer? with
    | none => rfl
    | some close =>
      simp only [Option.bind_some, Option.map_map, Function.comp_def, Nat.add_assoc]

/-- An identifier is no longer than the text. -/
theorem identLength_le_length (t : Text) : identLength t ≤ t.length := by
  cases t with
  | nil => exact Nat.le_refl _
  | cons b t =>
    have hrun := (List.takeWhile_prefix Byte.isIdentChar (l := t)).length_le
    rw [identLength, List.length_cons]
    split <;> omega

/-- A name is no longer than the text. -/
theorem nameLength_le_length (t : Text) : nameLength t ≤ t.length := by
  cases t with
  | nil => exact Nat.le_refl _
  | cons b t =>
    have hrun := (List.takeWhile_prefix Byte.isNameChar (l := t)).length_le
    rw [nameLength, List.length_cons]
    split <;> omega

/-- Where no star occurs, nothing closes a comment. -/
theorem commentTail_eq_none {t : Text} (h : star ∉ t) : commentTail t = none := by
  fun_induction commentTail t <;> simp_all

/-- A line ends in the text or not before its end. -/
theorem lineTail_append (t post : Text) : lineTail (t ++ post) = lineTail t ∨
    lineTail t = t.length ∧ t.length ≤ lineTail (t ++ post) := by
  unfold lineTail
  rw [List.takeWhile_append]
  split
  case isTrue hall => exact .inr ⟨hall, by simp⟩
  case isFalse => exact .inl rfl

/-! ### Nothing ends behind -/

/-- A text in which nothing ends but a pair of braces, and which nothing before it goes on
into: it begins with a closing brace, has no other closing bracket, and no quote, backtick
or star. -/
structure Seals (post : Text) : Prop where
  head : post.head? = some closeBrace
  behind : ∀ b ∈ post.tail, b.isCloser = false
  inside : ∀ b ∈ post, b.isQuote = false ∧ b ≠ tick ∧ b ≠ star

namespace Seals

variable (h : Seals post)
include h

/-- A text begins as it did or, if it was empty, with the brace behind it. -/
theorem head?_append (t : Text) : (t ++ post).head? = t.head?.or (some closeBrace) := by
  rw [List.head?_append, h.head]

/-- The next byte belongs to the text unless it is the closing brace. -/
theorem head?_append_eq_some_iff {b : Byte} (hb : b ≠ closeBrace) :
    (t ++ post).head? = some b ↔ t.head? = some b := by
  rw [h.head?_append]
  cases t with
  | nil => exact iff_of_false (fun heq => hb (Option.some.inj heq).symm) (by simp)
  | cons c t => rfl

/-- A run of bytes ends with the text, unless the closing brace belongs to it. -/
theorem takeWhile_append {p : Byte → Bool} (hp : p closeBrace = false) (t : Text) :
    (t ++ post).takeWhile p = t.takeWhile p := by
  obtain ⟨more, rfl⟩ := List.head?_eq_some_iff.mp h.head
  induction t with
  | nil => rw [List.nil_append, List.takeWhile_cons, hp]; rfl
  | cons b t ih => rw [List.cons_append, List.takeWhile_cons, List.takeWhile_cons, ih]

/-- What is not true of a closing brace is true of the first byte as before. -/
theorem any_head?_append {p : Byte → Bool} (hp : p closeBrace = false) (t : Text) :
    (t ++ post).head?.any p = t.head?.any p := by
  rw [h.head?_append]
  cases t with
  | nil => exact hp
  | cons b t => rfl

/-- A name ends with the text. -/
theorem nameLength_append (t : Text) : nameLength (t ++ post) = nameLength t := by
  cases t with
  | nil =>
    obtain ⟨more, rfl⟩ := List.head?_eq_some_iff.mp h.head
    rfl
  | cons b t =>
    simp only [List.cons_append, nameLength, h.takeWhile_append (p := Byte.isNameChar) rfl]

/-- An identifier ends with the text. -/
theorem identLength_append (t : Text) : identLength (t ++ post) = identLength t := by
  cases t with
  | nil =>
    obtain ⟨more, rfl⟩ := List.head?_eq_some_iff.mp h.head
    rfl
  | cons b t =>
    simp only [List.cons_append, identLength, h.takeWhile_append (p := Byte.isIdentChar) rfl]

/-- A word that has no closing brace in it is looked for in the text only. -/
theorem isPrefixOf_append {word : Text} (hword : closeBrace ∉ word) (t : Text) :
    word.isPrefixOf (t ++ post) = word.isPrefixOf t := by
  obtain ⟨more, rfl⟩ := List.head?_eq_some_iff.mp h.head
  induction word generalizing t with
  | nil => simp
  | cons b word ih =>
    rw [List.mem_cons, not_or] at hword
    cases t with
    | nil => simp [List.isPrefixOf, Ne.symm hword.1]
    | cons c t => rw [List.cons_append, List.isPrefixOf, List.isPrefixOf, ih hword.2]

/-- What a byte leads into does not depend on the brace behind the text. -/
theorem lead_append (b : Byte) (t : Text) : lead b (t ++ post) = lead b t := by
  have hslash := h.head?_append_eq_some_iff (t := t) (b := slash) (by decide)
  have hstar := h.head?_append_eq_some_iff (t := t) (b := star) (by decide)
  simp only [lead, hslash, hstar]

/-- No string ends behind the text. -/
theorem stringTail_append {q : Byte} (hq : q.isQuote = true) (t : Text) :
    stringTail q (t ++ post) = stringTail q t := by
  have hmem : q ∉ post := fun hmem => Bool.false_ne_true ((h.inside q hmem).1.symm.trans hq)
  induction t using Text.escape_induction with
  | nil => exact stringTail_eq_none hmem
  | lone =>
    obtain ⟨more, rfl⟩ := List.head?_eq_some_iff.mp h.head
    have hnone : stringTail q more = none :=
      stringTail_eq_none fun hmore => hmem (List.mem_cons_of_mem _ hmore)
    simp [stringTail, hnone]
  | escape c rest ih =>
    rw [List.cons_append, List.cons_append, stringTail, if_pos rfl, ih, stringTail, if_pos rfl]
  | byte b rest hslash ih =>
    rw [List.cons_append, stringTail_cons hslash, ih, stringTail_cons hslash]

/-- No comment ends behind the text. -/
theorem commentTail_append (t : Text) : commentTail (t ++ post) = commentTail t := by
  induction t with
  | nil => exact commentTail_eq_none fun hmem => (h.inside star hmem).2.2 rfl
  | cons b rest ih =>
    have hslash := h.head?_append_eq_some_iff (t := rest) (b := slash) (by decide)
    simp only [List.cons_append, commentTail, hslash, ih]

/-- The same of a comment whose star may be behind its slash. -/
theorem commentTail_behind {b : Byte} {t : Text} (hlead : lead b t = .blockComment) :
    commentTail ((t ++ post).drop 1) = commentTail (t.drop 1) := by
  obtain ⟨t, rfl⟩ := List.head?_eq_some_iff.mp (star_of_lead hlead).2
  exact h.commentTail_append t

/-- A bracket is closed in the text, or by the closing brace, or not at all. -/
theorem closeTail_group_append {opening close : Byte} (hopen : opening.closer? = some close)
    {n : Nat} (hn : closeTail (.group close) [] (t ++ post) = some n) :
    closeTail (.group close) [] t = some n ∨ n = t.length + 1 := by
  by_cases hle : n ≤ t.length
  · have hopened : (Frame.group close).Opened := ⟨opening, hopen⟩
    exact .inl ((closeTail_trailing hopened hle post).mp hn)
  · obtain ⟨m, rfl, hm⟩ := getElem?_closeTail rfl hn
    have hcloser : close.isCloser = true := (closer?_eq_some hopen).1
    obtain ⟨more, rfl⟩ := List.head?_eq_some_iff.mp h.head
    rw [List.getElem?_append_right (by omega)] at hm
    cases hk : m - t.length with
    | zero => exact .inr (by omega)
    | succ k =>
      rw [hk] at hm
      exact absurd hcloser (by simp [h.behind close (List.mem_of_getElem? hm)])

/-- No template ends behind the text. -/
theorem closeTail_template (t : Text) :
    closeTail .template [] (t ++ post) = closeTail .template [] t :=
  closeTail_append_of_not_mem trivial fun hmem => (h.inside tick hmem).2.1 rfl

end Seals

/-! ### Templates further on -/

namespace TemplateParts

variable (d : Nat) (p : TemplateParts)

/-- The same literal, `d` bytes further on. -/
def shift : TemplateParts :=
  ⟨p.chunks, p.holes.map (Span.shift d), p.stop + d⟩

/-- Text may be put before the parts of a template before or after a shift. -/
theorem shift_extend (bytes : Text) : (p.extend bytes).shift d = (p.shift d).extend bytes := by
  obtain ⟨chunks, holes, stop⟩ := p
  cases chunks <;> rfl

/-- A hole may be put before the parts of a template before or after a shift. -/
theorem shift_consHole (hole : Span) :
    (p.consHole hole).shift d = (p.shift d).consHole (hole.shift d) :=
  rfl

end TemplateParts

/-- A template literal that ends within a text is taken apart in the same way further on,
whatever stands behind the text. -/
theorem templateTail_trailing {pos : Nat} {p : TemplateParts} (h : templateTail pos t = some p)
    (d : Nat) (post : Text) : templateTail (pos + d) (t ++ post) = some (p.shift d) := by
  replace h := templateTrace h
  induction h with
  | closing =>
    rw [List.cons_append, templateTail, if_neg (by decide), if_pos rfl]
    simp [TemplateParts.shift, Nat.add_right_comm]
  | escape _ ih =>
    rw [List.cons_append, List.cons_append, templateTail, if_pos rfl, List.drop_succ_cons,
      List.drop_zero, Nat.add_right_comm, ih, Option.map_some, TemplateParts.shift_extend]
    rfl
  | @hole pos n rest p hclose _ ih =>
    have hhole := closeTail_group_append (b := openBrace) rfl hclose post
    have hdrop : (rest ++ post).drop n = rest.drop n ++ post :=
      List.drop_append_of_le_length (closeTail_bounds hclose).2
    have hspan : (⟨pos + d + 2, pos + d + 1 + n⟩ : Span) = Span.shift d ⟨pos + 2, pos + 1 + n⟩ := by
      simp only [Span.shift, Span.mk.injEq]
      omega
    rw [List.cons_append, List.cons_append, templateTail, if_neg (by decide),
      if_neg (by decide), if_pos ⟨rfl, rfl⟩]
    simp only [List.drop_succ_cons, List.drop_zero, hhole, hdrop]
    rw [hspan, show pos + d + 2 + n = pos + 2 + n + d by omega, ih, Option.map_some,
      TemplateParts.shift_consHole]
  | @byte pos b rest p hslash htick hopens htrace ih =>
    have hopens' : ¬(b = dollar ∧ (rest ++ post).head? = some openBrace) := by
      rintro ⟨rfl, hbrace⟩
      cases htrace <;> exact hopens ⟨rfl, hbrace⟩
    rw [List.cons_append, templateTail, if_neg hslash, if_neg htick, if_neg hopens',
      Nat.add_right_comm, ih, Option.map_some, TemplateParts.shift_extend]

/-- No template that is left open is taken apart. -/
theorem Seals.templateTail_append (h : Seals post) (pos d : Nat) (t : Text) :
    templateTail (pos + d) (t ++ post) = (templateTail pos t).map (·.shift d) := by
  cases hparts : templateTail pos t with
  | some p => exact templateTail_trailing hparts d post
  | none =>
    have hclose := stop_templateTail pos t
    rw [hparts, Option.map_none, eq_comm, Option.map_eq_none_iff, ← h.closeTail_template] at hclose
    have hbehind := stop_templateTail (pos + d) (t ++ post)
    rw [hclose, Option.map_none, Option.map_eq_none_iff] at hbehind
    rw [hbehind, Option.map_none]

end Scan

end JsxStyle
