import JsxStyle.Proofs.CheckedMarkup

/-!
# Checked readers of operands and modules
-/

namespace JsxStyle

namespace Checked

open Ascii Read

section

variable {src : Text} {r' : Readers} {r : Read.Readers} {lo hi : Nat}

/-- The ranges between commas are read without access that is not allowed. -/
theorem segments_eq (hutf8 : Text.isUtf8 src = true) (hlo : Seam src lo) (hhi : Rim src hi)
    (hle : lo ≤ hi) :
    (segmentsFrom src hi lo lo : Checked ReadError _) = pure (Scan.segments src lo hi) :=
  segmentsFrom_eq (Text.breaks_of_isUtf8 hutf8) hle (hlo.boundary hutf8) hhi.isBoundary

theorem segments_ranges {ranges : List Span} (hlo : Seam src lo) (hhi : Rim src hi) (hle : lo ≤ hi)
    (h : Scan.segments src lo hi = some ranges) :
    (∀ s ∈ ranges, Seam src s.lo ∧ Rim src s.hi) ∧ ∀ s ∈ ranges, s.lo ≤ s.hi := by
  refine ⟨Scan.seam_segmentsFrom h hlo hhi, fun s hs => ?_⟩
  obtain ⟨s', hs', -, hle', -⟩ := (Scan.inOrder_segmentsFrom h (Nat.le_refl _) hle).mem hs
  obtain rfl := Option.some.inj hs'
  exact hle'

/-- The byte behind a dot is looked at where the two comparisons are made at once. -/
theorem behindDot_eq (hhi : hi ≤ src.length) (b : Byte) (pos : Nat) :
    ∃ next, behindDot src b hi pos = pure next ∧ ∀ p : Byte → Bool, next.any p = true ↔
      b = dot ∧ pos + 1 < hi ∧ (src.drop (pos + 1)).head?.any p = true := by
  unfold behindDot
  by_cases hdot : b = dot
  · rw [if_pos hdot]
    by_cases hlt : pos + 1 < hi
    · obtain ⟨hge, -⟩ | ⟨c, -, hc, hdrop⟩ := byte_cases src (pos + 1)
      · omega
      exact ⟨some c, peek_eq_some hc hlt, fun p => by simp [hdot, hlt, hdrop]⟩
    · exact ⟨none, peek_eq_none (Nat.le_of_not_lt hlt), fun p => by simp [hlt]⟩
  · exact ⟨none, if_neg hdot, fun p => by simp [hdot]⟩

theorem chain_eq (hutf8 : Text.isUtf8 src = true) (hr : r'.Follows src r) (hhi : Rim src hi)
    (operand : Ast) {pos : Nat} (h : lo < pos) :
    chain r' src lo hi operand pos h = of (Read.chain r src lo hi operand pos h) := by
  have hsrc := Text.breaks_of_isUtf8 hutf8
  have hlen := hhi.seam.le
  induction hn : hi - pos using Nat.strongRecOn generalizing operand pos with
  | ind n ih =>
    rw [chain.eq_def, Read.chain.eq_def]
    by_cases hlt : pos < hi
    · obtain ⟨hge, -⟩ | ⟨b, -, hb, hdrop⟩ := byte_cases src pos
      · omega
      rw [if_pos hlt, if_pos hlt, byteAt_eq hb, pure_bind, hdrop]
      dsimp only
      obtain ⟨next, hnext, hany⟩ := behindDot_eq hlen b pos
      rw [hnext, pure_bind]
      by_cases hdot : b = dot ∧ pos + 1 < hi ∧
          (src.drop (pos + 1)).head?.any Byte.isIdentStart = true
      · have hname : Seam src (pos + 1) := .succ_of_isAscii hb (hdot.1 ▸ rfl)
        rw [if_pos ((hany _).mpr hdot), if_pos hdot, nameLength_isIdentChar, pure_bind,
          cut_eq (Nat.le_add_right ..) (hname.boundary hutf8) (hname.identEnd.boundary hutf8),
          pure_bind, Text.slice, Nat.add_sub_cancel_left, ahead_eq (by omega), pure_bind]
        exact ih _ (by omega) _ _ rfl
      · rw [if_neg hdot, if_neg fun h => hdot ((hany _).mp h)]
        split
        case isTrue hparen =>
          subst hparen
          rw [groupTail_eq hsrc hb rfl, pure_bind]
          cases hclose : Scan.closeTail (.group closeParen) [] (src.drop (pos + 1)) with
          | none => rfl
          | some k =>
            obtain ⟨hrim, -⟩ := Scan.rim_close hdrop hclose rfl
            have hk := (Scan.closeTail_bounds hclose).1
            have hopen : Seam src (pos + 1) := .succ_of_isAscii hb rfl
            dsimp only
            split
            · rw [segments_eq hutf8 hopen hrim (by omega), pure_bind]
              cases hranges : Scan.segments src (pos + 1) (pos + k) with
              | none => rfl
              | some ranges =>
                obtain ⟨hseams, hles⟩ := segments_ranges hopen hrim (by omega) hranges
                refine bind_eq (expressions_eq hr hseams hles) fun arguments _ => ?_
                rw [ahead_eq (by omega), pure_bind]
                exact ih _ (by omega) _ _ rfl
            · rfl
        case isFalse =>
          split
          case isTrue htick =>
            subst htick
            rw [templateParts_eq hsrc hb, pure_bind, Scan.templateEnd]
            cases hparts : Scan.templateParts src pos with
            | none => rfl
            | some parts =>
              dsimp only [Option.map_some]
              split
              · refine bind_eq (taggedTemplate_eq hsrc hr operand hb) fun tagged _ => ?_
                have hadv := tagged.advances
                rw [ahead_eq (by omega), pure_bind]
                exact ih _ (by omega) _ _ rfl
              · rfl
          case isFalse => rfl
    · rw [if_neg hlt, if_neg hlt]
      rfl

theorem operand_eq (hutf8 : Text.isUtf8 src = true) (hr : r'.Follows src r) (hlo : Seam src lo)
    (hhi : Rim src hi) (hlt : lo < hi) :
    operand r' src lo hi = of (Read.operand r src lo hi) := by
  have hsrc := Text.breaks_of_isUtf8 hutf8
  unfold operand Read.operand
  obtain ⟨hge, -⟩ | ⟨b, -, hb, hdrop⟩ := byte_cases src lo
  · have := hhi.seam.le
    omega
  rw [byteAt_eq hb, pure_bind, hdrop]
  dsimp only
  split
  case isTrue hquote =>
    have hascii := Byte.isAscii_of_isQuote hquote
    rw [stringTail_eq, pure_bind]
    cases htail : Scan.stringTail b (src.drop (lo + 1)) with
    | none => rfl
    | some k =>
      obtain ⟨m, rfl, hm⟩ := Scan.getElem?_stringTail htail
      rw [List.getElem?_drop] at hm
      have hopen : Seam src (lo + 1) := .succ_of_isAscii hb hascii
      have hclose : Seam src (lo + 1 + m) := .of_isAscii hm hascii
      dsimp only
      split
      · rw [show lo + (m + 1) = lo + 1 + m by omega, cut_eq (Nat.le_add_right ..)
          (hopen.boundary hutf8) (hclose.boundary hutf8), pure_bind, Text.slice,
          Nat.add_sub_cancel_left, ahead_eq (by omega), pure_bind]
        exact chain_eq hutf8 hr hhi _ _
      · rfl
  case isFalse =>
    split
    case isTrue hbracket =>
      subst hbracket
      rw [groupTail_eq hsrc hb rfl, pure_bind]
      cases hclose : Scan.closeTail (.group closeBracket) [] (src.drop (lo + 1)) with
      | none => rfl
      | some k =>
        obtain ⟨hrim, -⟩ := Scan.rim_close hdrop hclose rfl
        have hk := (Scan.closeTail_bounds hclose).1
        have hopen : Seam src (lo + 1) := .succ_of_isAscii hb rfl
        dsimp only
        split
        · rw [segments_eq hutf8 hopen hrim (by omega), pure_bind]
          cases hranges : Scan.segments src (lo + 1) (lo + k) with
          | none => rfl
          | some ranges =>
            obtain ⟨hseams, hles⟩ := segments_ranges hopen hrim (by omega) hranges
            refine bind_eq (expressions_eq hr hseams hles) fun elements _ => ?_
            rw [ahead_eq (by omega), pure_bind]
            exact chain_eq hutf8 hr hhi _ _
        · rfl
    case isFalse =>
      split
      case isTrue hless =>
        subst hless
        exact hr.element hb hhi
      case isFalse =>
        split
        case isTrue hident =>
          have hstarts : b :: (src.drop (lo + 1)).takeWhile Byte.isIdentChar <+: src.drop lo :=
            hdrop ▸ (List.prefix_cons_inj b).mpr (List.takeWhile_prefix _)
          have hlength : Scan.identLength (src.drop lo) =
              (b :: (src.drop (lo + 1)).takeWhile Byte.isIdentChar).length := by
            rw [hdrop, Scan.identLength, if_pos hident, List.length_cons, Nat.add_comm]
          have hname := Text.slice_of_isPrefix hstarts
          rw [← hlength] at hname
          rw [nameLength_isIdentChar, pure_bind, cut_eq (Nat.le_add_right ..) (hlo.boundary hutf8)
            (hlo.identEnd.boundary hutf8), pure_bind, hname]
          have hstop : lo + Scan.identLength (src.drop lo) =
              lo + 1 + ((src.drop (lo + 1)).takeWhile Byte.isIdentChar).length := by
            rw [hlength, List.length_cons]
            omega
          generalize lo + Scan.identLength (src.drop lo) = stop at hstop ⊢
          subst hstop
          rw [ahead_eq (by omega), pure_bind]
          exact chain_eq hutf8 hr hhi _ _
        case isFalse => rfl

theorem expression_eq (hutf8 : Text.isUtf8 src = true) (hr : r'.Follows src r)
    (hnests : r.Nests src) (hlo : Seam src lo) (hhi : Rim src hi) (hle : lo ≤ hi) :
    expression r' src lo hi = of (Read.expression r src lo hi) := by
  obtain ⟨-, hle', hhi', hseam, hrim⟩ := Read.shrink_spec hlo hhi hle
  have hspace : Scan.skipSpace src lo hi ≤ hi := skipSpace_le hle
  have hslice :
      (src.slice (Scan.skipSpace src lo hi) hi).length = hi - Scan.skipSpace src lo hi := by
    rw [Text.slice, List.length_take, List.length_drop]
    have := hhi.seam.le
    omega
  have hstop : hi - ((src.slice (Scan.skipSpace src lo hi) hi).reverse.takeWhile
      Byte.isSpace).length = (shrink src lo hi).hi := by
    have hsum := congrArg List.length
      (List.takeWhile_append_dropWhile (p := Byte.isSpace)
        (l := (src.slice (Scan.skipSpace src lo hi) hi).reverse))
    rw [List.length_append, List.length_reverse, hslice] at hsum
    show _ = Scan.skipSpace src lo hi + _
    omega
  unfold expression Read.expression
  rw [skipSpace_eq hhi.seam.le, pure_bind, runStart_eq _ hhi.seam.le hspace, pure_bind, hstop]
  rw [show Scan.skipSpace src lo hi = (shrink src lo hi).lo from rfl]
  generalize shrink src lo hi = range at *
  dsimp only
  split
  case isTrue => rfl
  case isFalse hne =>
    have hcode : code r' src range.lo range.hi = of (Read.code r src range.lo range.hi) :=
      codeFrom_eq hutf8 hr hnests hseam hrim (Nat.le_refl _) (Nat.le_refl _)
    refine bind_eq (operand_eq hutf8 hr hseam hrim (Nat.lt_of_le_of_ne hle' hne)) fun found _ => ?_
    cases found with
    | none => exact bind_eq hcode fun parts _ => rfl
    | some found =>
      dsimp only
      rw [skipSpace_eq hrim.seam.le, pure_bind]
      split
      · rfl
      · exact bind_eq hcode fun parts _ => rfl

end

variable {src : Text}

/-- The checked readers do what the readers do, however deep they look. -/
theorem follows_readers (hutf8 : Text.isUtf8 src = true) (depth : Nat) :
    (readers src depth).Follows src (Read.readers src depth) := by
  induction depth with
  | zero => exact ⟨fun _ _ _ => rfl, fun _ _ => rfl⟩
  | succ depth ih =>
    have hnests := nests_readers src depth
    have hbelow :
        (Readers.mk (readers src depth).expression (element (readers src depth) src)).Follows
        src ⟨(Read.readers src depth).expression, Read.element (Read.readers src depth) src⟩ :=
      ⟨ih.expression, fun hless hhi => element_eq hutf8 ih hnests hless hhi⟩
    have hnests' : Read.Readers.Nests src
        ⟨(Read.readers src depth).expression, Read.element (Read.readers src depth) src⟩ :=
      ⟨hnests.expression, fun hless hhi h => nested_element hnests hless hhi h⟩
    exact ⟨fun hlo hhi hle => expression_eq hutf8 hbelow hnests' hlo hhi hle,
      fun hless hhi => element_eq hutf8 ih hnests hless hhi⟩

/-- Reading a module makes no access that is not allowed. -/
theorem program_eq (hutf8 : Text.isUtf8 src = true) : program src = of (Read.program src) :=
  codeFrom_eq hutf8 (follows_readers hutf8 _) (nests_readers src _) (.zero src) (.inl rfl)
    (Nat.le_refl _) (Nat.le_refl _)

/-- Reading an expression makes no access that is not allowed. -/
theorem snippet_eq (hutf8 : Text.isUtf8 src = true) : snippet src = of (Read.snippet src) := by
  rw [snippet, Read.snippet, of_map, (follows_readers hutf8 _).expression (.zero src) (.inl rfl)
    (Nat.zero_le _)]

end Checked

end JsxStyle
