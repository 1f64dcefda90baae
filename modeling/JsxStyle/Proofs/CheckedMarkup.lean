import JsxStyle.Proofs.CheckedCode

/-!
# Checked readers of markup
-/

namespace JsxStyle

namespace Checked

open Ascii Read

section

variable {src : Text} {r' : Readers} {r : Read.Readers} {lo hi : Nat}

/-- The expression of a container is read without a fault. -/
theorem containerExpression_eq (hutf8 : Text.isUtf8 src = true) (hr : r'.Follows src r)
    (hlo : Seam src lo) (hhi : Rim src hi) (hle : lo ≤ hi) :
    containerExpression r' src lo hi = of (Read.containerExpression r src lo hi) := by
  unfold containerExpression Read.containerExpression
  rw [cut_eq hle (hlo.boundary hutf8) hhi.isBoundary, pure_bind]
  split
  · rfl
  · rw [hr.expression hlo hhi hle, of_map]

/-- What a range begins with is in the text, and what follows it is the rest of the range. -/
theorem slice_eq_cons {b : Byte} {rest : Text} (h : src.slice lo hi = b :: rest) :
    src[lo]? = some b ∧ lo < hi ∧ src.slice (lo + 1) hi = rest := by
  refine ⟨Scan.getElem?_of_slice_eq_cons h, ?_, by rw [Text.slice_add, h]; rfl⟩
  by_contra hge
  rw [Text.slice, Nat.sub_eq_zero_of_le (Nat.le_of_not_lt hge)] at h
  exact absurd h (by simp)

/-- An attribute is read without a fault. -/
theorem attributeAt_eq (hutf8 : Text.isUtf8 src = true) (hr : r'.Follows src r) {nameStop : Nat}
    (hname : nameStop = Scan.nameEnd src lo) (hlo : Seam src lo) (hhi : Rim src hi)
    (hlt : lo < nameStop) :
    attributeAt r' src lo hi = of (Read.attributeAt r src lo nameStop hi hlt) := by
  have hsrc := Text.breaks_of_isUtf8 hutf8
  have hlen := hhi.seam.le
  have hstop : Seam src nameStop := hname ▸ hlo.nameEnd
  unfold attributeAt Read.attributeAt
  dsimp only
  rw [nameLength_isNameChar, pure_bind,
    show lo + Scan.nameLength (src.drop lo) = nameStop from hname.symm,
    cut_eq (Nat.le_of_lt hlt) (hlo.boundary hutf8) (hstop.boundary hutf8), pure_bind,
    skipSpace_eq hlen, pure_bind, peek_eq hlen, pure_bind]
  split
  case isTrue hequals =>
    obtain ⟨more, hequals⟩ := List.head?_eq_some_iff.mp hequals
    have hvalue : Seam src (Scan.skipSpace src (Scan.skipSpace src nameStop hi + 1) hi) :=
      (Seam.succ_of_isAscii (Scan.getElem?_of_slice_eq_cons hequals) rfl).skipSpace
    have hlt' : lo < Scan.skipSpace src (Scan.skipSpace src nameStop hi + 1) hi := by
      have := Scan.le_skipSpace src nameStop hi
      have := Scan.le_skipSpace src (Scan.skipSpace src nameStop hi + 1) hi
      omega
    rw [skipSpace_eq hlen, pure_bind, peek_eq hlen, pure_bind]
    set valueLo := Scan.skipSpace src (Scan.skipSpace src nameStop hi + 1) hi
    cases hslice : src.slice valueLo hi with
    | nil => rfl
    | cons b rest =>
      obtain ⟨hb, hin, hrest⟩ := slice_eq_cons hslice
      dsimp only [List.head?_cons]
      split
      case isTrue hquote =>
        have hascii := Byte.isAscii_of_isQuote hquote
        have hopen := Seam.succ_of_isAscii hb hascii
        rw [cut_eq hin (hopen.boundary hutf8) hhi.isBoundary, pure_bind, hrest]
        cases hend : rest.findIdx? (· == b) with
        | none => rfl
        | some n =>
          obtain ⟨hn, hquote', -⟩ := List.findIdx?_eq_some_iff_getElem.mp hend
          have hclose : rest[n]? = some b := by
            rw [List.getElem?_eq_getElem hn]
            exact congrArg some (beq_iff_eq.mp hquote')
          rw [← hrest] at hclose
          have hclose := (Scan.getElem?_of_getElem?_slice hclose).1
          have htext : src.slice (valueLo + 1) (valueLo + 1 + n) = rest.take n := by
            rw [← hrest, Text.slice, Text.slice, Nat.add_sub_cancel_left, List.take_take,
              Nat.min_eq_left]
            rw [← hrest, Text.slice, List.length_take] at hn
            omega
          dsimp only
          rw [cut_eq (Nat.le_add_right ..) (hopen.boundary hutf8)
            (Text.isBoundary_of_isAscii hclose hascii), pure_bind, ahead_eq (by omega),
            pure_bind, htext]
          rfl
      case isFalse =>
        split
        case isTrue hbrace =>
          subst hbrace
          rw [groupTail_eq hsrc hb rfl, pure_bind]
          cases hclose : Scan.closeTail (.group closeBrace) [] (src.drop (valueLo + 1)) with
          | none => rfl
          | some n =>
            obtain ⟨hrim, hseam⟩ := Scan.rim_close (Scan.drop_eq_cons_of_getElem? hb) hclose rfl
            have hpos := (Scan.closeTail_bounds hclose).1
            dsimp only
            split
            · refine bind_eq (containerExpression_eq hutf8 hr (.succ_of_isAscii hb rfl) hrim
                (by omega)) fun expression _ => ?_
              rw [ahead_eq (by omega), pure_bind]
              rfl
            · rfl
        case isFalse =>
          split
          case isTrue hless =>
            subst hless
            refine bind_eq (hr.element hb hhi) fun value _ => ?_
            cases value with
            | none => rfl
            | some value =>
              have hadv := value.advances
              dsimp only
              rw [ahead_eq (by omega), pure_bind]
              rfl
          case isFalse => rfl
  case isFalse =>
    rw [ahead_eq hlt, pure_bind]
    rfl

/-- The rest of an opening tag is read without a fault. -/
theorem tagTail_eq (hutf8 : Text.isUtf8 src = true) (hr : r'.Follows src r) (hnests : r.Nests src)
    {pos : Nat} (hpos : Seam src pos) (hhi : Rim src hi) :
    tagTail r' src hi pos = of (Read.tagTail r src hi pos) := by
  have hsrc := Text.breaks_of_isUtf8 hutf8
  have hlen := hhi.seam.le
  induction hn : hi - pos using Nat.strongRecOn generalizing pos with
  | ind n ih =>
    rw [tagTail.eq_def, Read.tagTail.eq_def, spaceEnd_eq hlen, pure_bind]
    have hle := Scan.le_skipSpace src pos hi
    have hhere : Seam src (Scan.skipSpace src pos hi) := hpos.skipSpace
    dsimp only
    set here := Scan.skipSpace src pos hi
    by_cases hlt : here < hi
    · obtain ⟨hge, -⟩ | ⟨b, -, hb, hdrop⟩ := byte_cases src here
      · omega
      rw [if_pos hlt, if_pos hlt, byteAt_eq hb, pure_bind, hdrop]
      dsimp only
      rw [List.head?_drop]
      split
      · rfl
      · split
        · rfl
        · split
          case isTrue hbrace =>
            subst hbrace
            rw [groupTail_eq hsrc hb rfl, pure_bind]
            cases hclose : Scan.closeTail (.group closeBrace) [] (src.drop (here + 1)) with
            | none => rfl
            | some k =>
              obtain ⟨hrim, hseam⟩ := Scan.rim_close hdrop hclose rfl
              have hpos := (Scan.closeTail_bounds hclose).1
              have hinner : Seam src (Scan.skipSpace src (here + 1) (here + k)) :=
                (Seam.succ_of_isAscii hb rfl).skipSpace
              have hinner' : Scan.skipSpace src (here + 1) (here + k) ≤ here + k :=
                skipSpace_le (by omega)
              dsimp only
              by_cases hin : here + k < hi
              · rw [if_pos hin, skipSpace_eq hrim.seam.le, pure_bind,
                  cut_eq hinner' (hinner.boundary hutf8) hrim.isBoundary, pure_bind]
                by_cases hdots : [dot, dot, dot].isPrefixOf
                    (src.slice (Scan.skipSpace src (here + 1) (here + k)) (here + k)) = true
                · rw [if_pos hdots, if_pos ⟨hin, hdots⟩]
                  have hstarts := List.isPrefixOf_iff_prefix.mp hdots
                  have hbehind :=
                    hinner.add_length (hstarts.trans (List.take_prefix ..))
                      (List.all_eq_true.mp (by decide))
                  have hfit : Scan.skipSpace src (here + 1) (here + k) + 3 ≤ here + k := by
                    have hlength : 3 ≤ _ := hstarts.length_le
                    rw [Text.slice, List.length_take] at hlength
                    omega
                  refine bind_eq (hr.expression hbehind hrim hfit) fun argument _ => ?_
                  refine bind_eq (ih _ (by omega) hseam rfl) fun tail _ => ?_
                  cases tail <;> rfl
                · rw [if_neg hdots, if_neg fun h => hdots h.2]
                  rfl
              · rw [if_neg hin, if_neg fun h => hin h.1]
                rfl
          case isFalse =>
            split
            case isTrue hstart =>
              have hname : here + 1 + ((src.drop (here + 1)).takeWhile Byte.isNameChar).length =
                  Scan.nameEnd src here := by
                rw [Scan.nameEnd, hdrop, Scan.nameLength, if_pos hstart, Nat.add_assoc]
              refine bind_eq (attributeAt_eq hutf8 hr hname hhere hhi _) fun attr hattr => ?_
              cases attr with
              | none => rfl
              | some attr =>
                have hadv := attr.advances
                obtain ⟨hnested, hspan⟩ :=
                  nested_attributeAt hnests hhere (hname ▸ hhere.nameEnd) hhi hattr
                refine bind_eq (ih _ (by omega) (seam_stop hnested hspan) rfl) fun tail _ => ?_
                cases tail <;> rfl
            case isFalse => rfl
    · rw [if_neg hlt, if_neg hlt]
      rfl

/-- A closing tag is read without a fault. -/
theorem closingTag_eq (hutf8 : Text.isUtf8 src = true) {name : Text} {pos : Nat}
    (hslash : src[pos + 1]? = some slash) (hpos : Seam src pos) (hhi : hi ≤ src.length) :
    closingTag src name hi pos = of (Read.closingTag src name hi pos) := by
  have hname : Seam src (Scan.skipSpace src (pos + 2) hi) :=
    (Seam.succ_of_isAscii hslash rfl).skipSpace
  unfold closingTag Read.closingTag
  dsimp only
  rw [skipSpace_eq hhi, pure_bind, nameLength_isNameChar, pure_bind,
    cut_eq (Nat.le_add_right ..) (hname.boundary hutf8) (hname.nameEnd.boundary hutf8), pure_bind]
  rw [show Scan.skipSpace src (pos + 2) hi +
    Scan.nameLength (src.drop (Scan.skipSpace src (pos + 2) hi)) =
      Scan.nameEnd src (Scan.skipSpace src (pos + 2) hi) from rfl, skipSpace_eq hhi, pure_bind,
    peek_eq hhi, pure_bind]
  split
  case isTrue hgreater =>
    obtain ⟨more, hgreater⟩ := List.head?_eq_some_iff.mp hgreater
    have hclose := Seam.succ_of_isAscii (Scan.getElem?_of_slice_eq_cons hgreater) rfl
    have hadv : pos < Scan.skipSpace src
        (Scan.nameEnd src (Scan.skipSpace src (pos + 2) hi)) hi + 1 := by
      have := Scan.le_skipSpace src (pos + 2) hi
      have := Scan.le_nameEnd src (Scan.skipSpace src (pos + 2) hi)
      have := Scan.le_skipSpace src (Scan.nameEnd src (Scan.skipSpace src (pos + 2) hi)) hi
      omega
    split
    · rw [cut_eq (Nat.le_of_lt hadv) (hpos.boundary hutf8) (hclose.boundary hutf8), pure_bind,
        ahead_eq hadv, pure_bind]
      rfl
    · rfl
  case isFalse => rfl

/-- Two bytes are looked for in one go where they are compared one after the other. -/
theorem isPrefixOf_pair {b c d : Byte} {rest : Text} :
    [b, c].isPrefixOf (d :: rest) = true ↔ d = b ∧ rest.head? = some c := by
  cases rest <;> grind [List.isPrefixOf]

/-- The first byte of a text between children is neither brace nor angle. -/
theorem textStop_eq {b : Byte} {pos : Nat} (hb : src[pos]? = some b) (hlt : pos < hi)
    (hless : b ≠ less) (hbrace : b ≠ openBrace) :
    pos + ((src.slice pos hi).takeWhile fun b => b != less && b != openBrace).length =
      pos + 1 +
        ((src.slice (pos + 1) hi).takeWhile fun b => b != less && b != openBrace).length := by
  have hslice : src.slice pos hi = b :: src.slice (pos + 1) hi := by
    rw [Text.slice, Scan.drop_eq_cons_of_getElem? hb, show hi - pos = hi - (pos + 1) + 1 by omega]
    rfl
  rw [hslice, List.takeWhile_cons_of_pos (by simp [hless, hbrace]), List.length_cons]
  omega

/-- The content of an element is read without a fault. -/
theorem content_eq (hutf8 : Text.isUtf8 src = true) (hr : r'.Follows src r) (hnests : r.Nests src)
    {name : Text} {pos : Nat} (hpos : Seam src pos) (hhi : Rim src hi) :
    content r' src name lo hi pos = of (Read.content r src name lo hi pos) := by
  have hsrc := Text.breaks_of_isUtf8 hutf8
  induction hn : hi - pos using Nat.strongRecOn generalizing pos with
  | ind n ih =>
    rw [content.eq_def, Read.content.eq_def]
    by_cases hlt : pos < hi
    · obtain ⟨hge, -⟩ | ⟨b, -, hb, hdrop⟩ := byte_cases src pos
      · have := hhi.seam.le
        omega
      have hrest : src.slice pos src.length = b :: src.drop (pos + 1) := by
        rw [Text.slice, List.take_of_length_le (by simp), hdrop]
      rw [if_pos hlt, if_pos hlt, cut_eq hpos.le (hpos.boundary hutf8)
        (Text.isBoundary_length src), pure_bind, hdrop, hrest]
      dsimp only
      by_cases htag : b = less ∧ (src.drop (pos + 1)).head? = some slash
      · rw [if_pos htag, if_pos (isPrefixOf_pair.mpr htag)]
        exact closingTag_eq hutf8 (by rw [← htag.2, List.head?_drop]) hpos hhi.seam.le
      · rw [if_neg htag, if_neg fun h => htag (isPrefixOf_pair.mp h), byteAt_eq hb, pure_bind]
        split
        case isTrue hless =>
          subst hless
          refine bind_eq (hr.element hb hhi) fun child? hchild => ?_
          cases child? with
          | none => rfl
          | some child =>
            have hadv := child.advances
            obtain ⟨hnested, hspan, -⟩ := hnests.element hb hhi hchild
            exact bind_eq (ih _ (by omega) (seam_stop hnested hspan) rfl) fun more _ => rfl
        case isFalse hless =>
          split
          case isTrue hbrace =>
            subst hbrace
            rw [groupTail_eq hsrc hb rfl, pure_bind]
            cases hclose : Scan.closeTail (.group closeBrace) [] (src.drop (pos + 1)) with
            | none => rfl
            | some k =>
              obtain ⟨hrim, hseam⟩ := Scan.rim_close hdrop hclose rfl
              have hk := (Scan.closeTail_bounds hclose).1
              dsimp only
              split
              · refine bind_eq (containerExpression_eq hutf8 hr (.succ_of_isAscii hb rfl) hrim
                  (by omega)) fun expression _ => ?_
                rw [ahead_eq (by omega), pure_bind]
                exact bind_eq (ih _ (by omega) hseam rfl) fun more _ => rfl
              · rfl
          case isFalse hbrace =>
            have hstop := seam_textStop hlt hhi.seam
            rw [cut_eq (Nat.le_of_lt hlt) (hpos.boundary hutf8) hhi.isBoundary, pure_bind]
            have hsame := textStop_eq hb hlt hless hbrace
            generalize pos + (List.takeWhile _ (src.slice pos hi)).length = stop at hsame ⊢
            subst hsame
            rw [cut_eq (by omega) (hpos.boundary hutf8)
              (hstop.boundary hutf8), pure_bind, ahead_eq (by omega), pure_bind]
            exact bind_eq (ih _ (by omega) hstop rfl) fun more _ => rfl
    · rw [if_neg hlt, if_neg hlt]
      rfl

/-- An element is read without a fault. -/
theorem element_eq (hutf8 : Text.isUtf8 src = true) (hr : r'.Follows src r) (hnests : r.Nests src)
    (hless : src[lo]? = some less) (hhi : Rim src hi) :
    element r' src lo hi = of (Read.element r src lo hi) := by
  have hopen : Seam src (lo + 1) := .succ_of_isAscii hless rfl
  have hname : Seam src (Scan.nameEnd src (lo + 1)) := hopen.nameEnd
  unfold element Read.element
  dsimp only
  by_cases hlt : lo + 1 < hi
  · obtain ⟨hge, -⟩ | ⟨b, -, hb, hdrop⟩ := byte_cases src (lo + 1)
    · have := hhi.seam.le
      omega
    rw [peek_eq_some hb hlt, pure_bind, if_neg (Nat.not_le.mpr hlt), hb]
    dsimp only
    rw [nameLength_isNameChar, pure_bind]
    by_cases hnone : Scan.nameEnd src (lo + 1) = lo + 1 ∧ some b ≠ some greater
    · rw [if_pos hnone, if_pos]
      · rfl
      · exact ⟨fun h => hnone.2 (congrArg some h), Nat.add_left_cancel (n := lo + 1) hnone.1⟩
    · rw [if_neg hnone, if_neg fun h => hnone ⟨congrArg (lo + 1 + ·) h.2, by simpa using h.1⟩]
      rw [cut_eq (Nat.le_add_right ..) (hopen.boundary hutf8) (hname.boundary hutf8), pure_bind]
      refine bind_eq (tagTail_eq hutf8 hr hnests hname hhi) fun tag? htag => ?_
      cases tag? with
      | none => rfl
      | some tag =>
        have hattributes := nested_tagTail hnests hname hhi htag
        dsimp only
        split
        · rfl
        · exact bind_eq (content_eq hutf8 hr hnests hattributes.seam hhi) fun inner _ => rfl
  · rw [peek_eq_none (Nat.le_of_not_lt hlt), pure_bind, if_pos (Nat.le_of_not_lt hlt)]
    rfl

end

end Checked

end JsxStyle
