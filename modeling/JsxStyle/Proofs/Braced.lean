import JsxStyle.Proofs.Enclosed
import JsxStyle.Proofs.Relocated

/-!
# Markup between braces

Markup that is the value of a statement can stand between the braces of an element as
well, behind other code.  Its bytes are gone over twice there: by the search that pairs
the braces, which knows nothing of markup, and by the readers.  The readers find in it
what they find outside; so all depends on the search.

* `embeds_braced`: the markup in the statement and in the expression;
* `matching_of_program_braced`: what the search must have found;
* `program_braced_iff`: when the markup is read inside braces as outside.
-/

namespace JsxStyle

open Ascii Scan

namespace Scan.InBraces

/-- What lies between braces behind a text lies between them without that text. -/
theorem of_append {pre t : Text} {lo hi : Nat} (h : InBraces (pre ++ t) pre.length lo hi) :
    InBraces t 0 (lo - pre.length) (hi - pre.length) := by
  obtain ⟨opening, closing, hstart, hbrace, hclose, hlo, hhi⟩ := h
  obtain ⟨k, rfl⟩ := Nat.exists_eq_add_of_le hstart
  rw [List.getElem?_append_right hstart, Nat.add_sub_cancel_left] at hbrace
  rw [matching_append_length] at hclose
  obtain ⟨n, hn, rfl⟩ := Option.map_eq_some_iff.mp hclose
  exact ⟨k, n, Nat.zero_le _, hbrace, hn, by omega, by omega⟩

end Scan.InBraces

namespace Read

open Text

variable {src markup : Text}

/-- No literal ends in what stands behind the markup. -/
theorem seals_closing : Seals (closeBrace :: closingOf outer) := by
  have hbehind : (closingOf outer).all (!·.isCloser) = true := by decide
  have hinside : (closeBrace :: closingOf outer).all
      (fun b => !b.isQuote && b != tick && b != star) = true := by decide
  refine ⟨rfl, fun b hb => ?_, fun b hb => ?_⟩
  · simpa using List.all_eq_true.mp hbehind b hb
  · simpa [and_assoc] using List.all_eq_true.mp hinside b hb

/-- Markup that has no bracket between braces for the brace behind it to close stands in the
expression as it stands in the statement. -/
theorem embeds_braced (hless : (statement markup)[4]? = some less)
    (hclosed : ∀ i, InBraces markup 0 i (i + 1) →
      matching (markup ++ [closeBrace]) i ≠ some markup.length) :
    Embeds (statement markup) (statement (braced markup)) (closeBrace :: closingOf outer) 4 9 := by
  have hcode : (Text.ofString "x = ").length = 4 := by decide
  have hfive : guardText.length = 5 := by decide
  obtain ⟨src, hsrc⟩ : ∃ src, src = statement (braced markup) := ⟨_, rfl⟩
  obtain ⟨-, -, height, hlength⟩ := drop_braced hsrc
  have hbehind : src.drop 13 = markup ++ closeBrace :: closingOf outer :=
    @drop_add_of_eq _ guardText _ 8 (by rw [height, List.append_assoc])
  rw [← hsrc]
  refine ⟨hless, ?_, seals_closing, fun i hin hclose => ?_⟩
  · rw [hbehind, statement, ← hcode, List.drop_left]
  · obtain ⟨k, rfl⟩ : ∃ k, i = 4 + k := Nat.exists_eq_add_of_le (Nat.le_of_lt hin.start_lt)
    have hbefore : (src.take 13).length = 13 := by
      rw [List.length_take]
      omega
    have hwhole : src = src.take 13 ++ ((markup ++ [closeBrace]) ++ closingOf outer) := by
      rw [List.append_assoc, List.singleton_append, ← hbehind, List.take_append_drop]
    have hpos : 4 + k + 9 = (src.take 13).length + k := by omega
    have hstop : (statement markup).length + 9 = (src.take 13).length + markup.length := by
      rw [statement, List.length_append, hcode]
      omega
    rw [hpos, hstop] at hclose
    generalize src.take 13 = pre at hclose hwhole
    rw [hwhole, matching_append_length] at hclose
    obtain ⟨n, hn, heq⟩ := Option.map_eq_some_iff.mp hclose
    obtain rfl := Nat.add_left_cancel heq
    have hshort : markup.length < (markup ++ [closeBrace]).length := by simp
    refine hclosed k ?_ ((matching_append_eq_some_iff hshort _).mp hn)
    have hwithin : InBraces (Text.ofString "x = " ++ markup) (Text.ofString "x = ").length (4 + k)
        (4 + k + 1) := hcode.symm ▸ hin
    have hinner := hwithin.of_append
    rw [hcode, Nat.add_sub_cancel_left] at hinner
    exact hinner.mono (Nat.le_refl _) (by omega)

/-- The search for the end of the braces must have come to the brace behind the markup. -/
theorem matching_of_program_braced (hsrc : src = statement (braced markup)) {found : Ast}
    (h : program src = .ok [statementCode, bracedAt markup.length found]) :
    matching src 7 = some (13 + markup.length) := by
  obtain ⟨hfour, hseven, -, hlength⟩ := drop_braced hsrc
  have hopened : 7 < src.length := by omega
  obtain ⟨reading, hast, -, -, -, -, hread⟩ := element_of_program h (List.mem_cons_of_mem _
    List.mem_cons_self) rfl rfl
  obtain ⟨hok, herror⟩ :=
    element_eq (readers src src.length) (by decide) hfour (Nat.le_of_lt hopened)
  cases hcontent : content (readers src src.length) src outer 4 src.length 7 with
  | error e =>
    have hnone := herror e hcontent
    exact absurd (hnone.symm.trans hread) (by simp)
  | ok inner =>
    obtain ⟨_, helement⟩ := hok inner hcontent
    obtain rfl := Option.some.inj (Except.ok.inj (helement.symm.trans hread))
    obtain ⟨n, expression, more, hclose, hchildren⟩ := children_of_content hseven hcontent
    have hspans : inner.children.map Ast.span = [some ⟨7, 14 + markup.length⟩] := by
      injection hast with _ hkind
      injection hkind with _ hheld
      rw [hheld]
      rfl
    rw [hchildren] at hspans
    have hstop : 7 + n + 1 = 14 + markup.length :=
      congrArg Span.hi (Option.some.inj (List.cons.inj hspans).1)
    rw [matching_of_closer hseven rfl, hclose, Option.map_some, Option.some.injEq]
    omega

variable {opening : Ast} {children : List Ast} {closing : Option Text}

/-- **Markup is read inside braces as it is outside exactly if the brace behind it closes the
one before it.**  That brace must not close a bracket in an expression of the markup as well,
such as one in a line comment, which is no bracket for the search but is one where an array is
cut at its commas. -/
theorem program_braced_iff
    (houtside : program (statement markup) =
      .ok [statementCode, .placed 4 (4 + markup.length) (.element opening children closing)])
    (hclosed : ∀ i, InBraces markup 0 i (i + 1) →
      matching (markup ++ [closeBrace]) i ≠ some markup.length) :
    program (statement (braced markup)) = .ok [statementCode, bracedAt markup.length
        ((Ast.placed 4 (4 + markup.length) (.element opening children closing)).shift 9)] ↔
      matching (statement (braced markup)) 7 = some (13 + markup.length) := by
  obtain ⟨found, hast, hstop, hless, hgreater, -, hread⟩ := element_of_program houtside
    (List.mem_cons_of_mem _ List.mem_cons_self) rfl rfl
  refine ⟨matching_of_program_braced rfl, fun hclose => ?_⟩
  have hbehind : (statement markup).drop 4 = markup := rfl
  have hfirst : markup.head? = some less := by
    rw [← hbehind, List.head?_drop]
    exact hless
  have hpos : 0 < markup.length := by
    obtain ⟨rest, rfl⟩ := List.head?_eq_some_iff.mp hfirst
    exact Nat.succ_pos _
  have hlast : markup.getLast? = some greater := by
    rw [List.getLast?_eq_getElem?, ← hgreater, ← hbehind, List.getElem?_drop, hbehind]
    refine congrArg (fun i => (statement markup)[i]?) ?_
    show 4 + (markup.length - 1) = 4 + markup.length - 1
    omega
  obtain ⟨src', hsrc⟩ : ∃ src', src' = statement (braced markup) := ⟨_, rfl⟩
  have hlength := (drop_braced hsrc).2.2.2
  have hembeds := embeds_braced hless hclosed
  rw [← hsrc] at hclose hembeds ⊢
  obtain ⟨⟨ast, stop, hadv⟩, hread', hast', hstop'⟩ :=
    element_relocated hembeds (Nat.le_refl _) hread
  obtain rfl : ast = _ := hast'
  have hend : (statement markup).length + 9 = 13 + markup.length := by
    rw [← List.take_append_drop 4 (statement markup), hbehind, List.length_append]
    show 4 + markup.length + 9 = 13 + markup.length
    omega
  obtain rfl : stop = 13 + markup.length := by
    have hstop' : stop = found.stop + 9 := hstop'
    have hstop : found.stop = 4 + markup.length := hstop
    omega
  have hagree : AgreeFrom 13 13 (readers src' (src'.length + 1)) (readers src' src'.length) :=
    agreeFrom_readers (by omega) (by omega)
  rw [hagree.element _ (Nat.le_refl 13), hend, hast] at hread'
  exact program_braced hfirst hlast hsrc hclose ⟨hadv, hread'⟩

/-- A parenthesis between quotation marks, as text and as the argument of a call. -/
theorem quoted_text_read_inside :
    ∃ (markup : Text) (opening : Ast) (children : List Ast) (closing : Option Text),
      markup = Text.ofString "<b>'(' \x7bf('(')\x7d</b>" ∧
      program (statement markup) =
        .ok [statementCode, .placed 4 (4 + markup.length) (.element opening children closing)] ∧
      (∀ i, InBraces markup 0 i (i + 1) →
        matching (markup ++ [closeBrace]) i ≠ some markup.length) ∧
      matching (statement (braced markup)) 7 = some (13 + markup.length) ∧
      program (statement (braced markup)) = .ok [statementCode, bracedAt markup.length
        ((Ast.placed 4 (4 + markup.length) (.element opening children closing)).shift 9)] := by
  obtain ⟨markup, hmarkup⟩ : ∃ markup, markup = Text.ofString "<b>'(' \x7bf('(')\x7d</b>" :=
    ⟨_, rfl⟩
  obtain ⟨src, hsrc⟩ : ∃ src, src = statement markup := ⟨_, rfl⟩
  have hrun : ((element (readers src src.length) src 4 src.length).toOption.any fun answer =>
      answer.any fun found => found.stop = src.length ∧ found.ast.kind.form = .element) = true := by
    subst hsrc hmarkup
    decide +kernel
  have hbrackets :
      ∀ i < markup.length, matching (markup ++ [closeBrace]) i ≠ some markup.length := by
    subst hmarkup
    decide +kernel
  have hclosed (i : Nat) (hin : InBraces markup 0 i (i + 1)) :
      matching (markup ++ [closeBrace]) i ≠ some markup.length :=
    hbrackets i (Nat.lt_of_succ_lt hin.hi_lt)
  have hclose : matching (statement (braced markup)) 7 = some (13 + markup.length) := by
    subst hmarkup
    decide +kernel
  obtain ⟨answer, hread, hfacts⟩ := exists_of_any hrun
  obtain ⟨⟨⟨s, k⟩, stop, hadv⟩, rfl, hfacts⟩ := (Option.any_eq_true _ _).mp hfacts
  obtain ⟨rfl, hform⟩ : stop = src.length ∧ k.form = .element := of_decide_eq_true hfacts
  have hspan : s = some ⟨4, src.length⟩ := (covers_readers src (src.length + 1) hread).2.1
  have hlength : src.length = 4 + markup.length := by
    rw [hsrc, statement, List.length_append]
    rfl
  cases k with
  | element opening children closing =>
    have houtside : program (statement markup) =
        .ok [statementCode, .placed 4 (4 + markup.length) (.element opening children closing)] := by
      rw [← hsrc, ← hlength, Ast.placed, ← hspan]
      exact (program_statement (hmarkup ▸ hsrc)).1 _ hadv hread
    exact ⟨markup, opening, children, closing, hmarkup, houtside, hclosed, hclose,
      (program_braced_iff houtside hclosed).mpr hclose⟩
  | _ => exact absurd hform (by simp [Kind.form])

end Read

end JsxStyle
