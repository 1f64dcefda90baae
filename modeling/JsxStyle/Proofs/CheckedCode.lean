import JsxStyle.Proofs.CheckedRead

/-!
# Checked readers of code

A reader of code passes comments, literals and words and cuts out what lies
between the pieces that it finds.
-/

namespace JsxStyle

namespace Text

/-- Trimming at the start leaves the end of a text. -/
theorem trimStart_isSuffix (t : Text) : trimStart t <:+ t := by
  induction t using blank_induction with
  | visible t hnone => simp [trimStart_of_visible hnone]
  | blank t hsome ih =>
    rw [trimStart_of_blank hsome]
    exact ih.trans (List.drop_suffix ..)

/-- Trimming at the end leaves the beginning of a text. -/
theorem trimEnd_isPrefix (t : Text) : trimEnd t <+: t := by
  induction t with
  | nil => exact List.prefix_refl _
  | cons b rest ih =>
    rw [trimEnd]
    split
    · exact List.nil_prefix
    · exact (List.prefix_cons_inj b).mpr ih

/-- Trimming leaves a part of a text. -/
theorem trim_infix (t : Text) : trim t <:+: t :=
  (trimEnd_isPrefix _).isInfix.trans (trimStart_isSuffix t).isInfix

/-- Dropping a leading word leaves the end of a text. -/
theorem dropLead_suffix (word t : Text) : dropLead word t <:+ t := by
  unfold dropLead
  split
  · exact List.drop_suffix ..
  · exact List.suffix_refl t

/-- Dropping a trailing word leaves the beginning of a text. -/
theorem dropTrail_prefix (word t : Text) : dropTrail word t <+: t := by
  unfold dropTrail
  split
  · exact List.take_prefix ..
  · exact List.prefix_refl t

end Text

/-- A clause is cut down from both ends. -/
theorem Read.clauseProper_isInfix (clause : Text) : clauseProper clause <:+: clause :=
  (Text.dropLead_suffix ..).isInfix.trans <| (Text.trim_infix _).trans <|
    (Text.dropTrail_prefix ..).isInfix.trans (Text.trim_infix clause)

namespace Checked

open Ascii Read

/-- Checked readers that do what readers do, on ranges as they are given to them. -/
structure Readers.Follows (src : Text) (r' : Readers) (r : Read.Readers) : Prop where
  expression : ∀ {lo hi : Nat}, Seam src lo → Rim src hi → lo ≤ hi →
    r'.expression lo hi = of (r.expression lo hi)
  element : ∀ {lo hi : Nat}, src[lo]? = some less → Rim src hi →
    r'.element lo hi = of (r.element lo hi)

section

variable {src : Text} {r' : Readers} {r : Read.Readers} {lo hi : Nat}

/-- The holes of a template that begin and end between characters are read without a fault. -/
theorem expressions_eq (hr : r'.Follows src r) {ranges : List Span}
    (hseams : ∀ s ∈ ranges, Seam src s.lo ∧ Rim src s.hi) (hle : ∀ s ∈ ranges, s.lo ≤ s.hi) :
    r'.expressions ranges = of (r.expressions ranges) := by
  unfold Readers.expressions Read.Readers.expressions
  induction ranges with
  | nil => rfl
  | cons s rest ih =>
    obtain ⟨hseam, hseams⟩ := List.forall_mem_cons.mp hseams
    obtain ⟨hle, hrest⟩ := List.forall_mem_cons.mp hle
    rw [List.mapM_cons, List.mapM_cons]
    refine bind_eq (hr.expression hseam.1 hseam.2 hle) fun a _ => ?_
    exact bind_eq (ih hseams hrest) fun as _ => rfl

/-- Opaque code between characters is cut without a fault. -/
theorem opaqueCode_eq (hutf8 : Text.isUtf8 src = true) (hlo : Seam src lo) (hhi : Seam src hi) :
    opaqueCode src lo hi = pure (Read.opaqueCode src lo hi) := by
  unfold opaqueCode Read.opaqueCode
  split
  case isTrue hlt =>
    rw [cut_eq (Nat.le_of_lt hlt) (hlo.boundary hutf8) (hhi.boundary hutf8), pure_bind]
  case isFalse => rfl

/-- The bindings of a clause are cut out at braces. -/
theorem clauseBindings_eq {clause : Text} (hclause : clause.Breaks) :
    clauseBindings clause = pure (Read.clauseBindings clause) := by
  unfold clauseBindings Read.clauseBindings
  cases hopen : clause.findIdx? (· == openBrace) with
  | none => rfl
  | some i =>
    obtain ⟨hlt, hbrace, -⟩ := List.findIdx?_eq_some_iff_getElem.mp hopen
    have hb : clause[i]? = some openBrace := by
      rw [List.getElem?_eq_getElem hlt]
      exact congrArg some (beq_iff_eq.mp hbrace)
    have hi := Text.isBoundary_of_isAscii hb rfl
    have hi' := hclause.isBoundary_succ hb rfl
    have htail : clause.slice i clause.length = openBrace :: clause.drop (i + 1) := by
      rw [Text.slice, ← Scan.drop_eq_cons_of_getElem? hb, List.take_of_length_le (by simp)]
    have hclose : clause.isBoundary
        (i + 1 + ((clause.drop (i + 1)).takeWhile (· != closeBrace)).length) = true := by
      rcases Scan.length_takeWhile (· != closeBrace) (clause.drop (i + 1)) with hall | ⟨b, hb, hend⟩
      · rw [hall, List.length_drop, Nat.add_sub_cancel' hlt]
        exact Text.isBoundary_length clause
      · obtain rfl : b = closeBrace := by simpa using hend
        rw [List.getElem?_drop] at hb
        exact Text.isBoundary_of_isAscii hb rfl
    have hinner : clause.slice (i + 1)
        (i + 1 + ((clause.drop (i + 1)).takeWhile (· != closeBrace)).length) =
          (clause.drop (i + 1)).takeWhile (· != closeBrace) :=
      Text.slice_of_isPrefix (List.takeWhile_prefix _)
    dsimp only
    rw [cut_eq (Nat.le_of_lt hlt) hi (Text.isBoundary_length clause), pure_bind, htail,
      List.takeWhile_cons_of_pos (by decide), List.length_cons]
    generalize (clause.drop (i + 1)).takeWhile (· != closeBrace) = run at *
    rw [show i + (run.length + 1) = i + 1 + run.length by omega,
      cut_eq (Nat.le_add_right ..) hi' hclose, pure_bind, hinner,
      cut_eq (Nat.zero_le i) (Text.isBoundary_zero clause) hi, pure_bind, Text.slice,
      List.drop_zero, Nat.sub_zero]

/-- The end of a statement is found without a fault. -/
theorem statementEnd_eq (hutf8 : Text.isUtf8 src = true) {stop : Nat} (hstop : Seam src stop)
    (hhi : hi ≤ src.length) :
    statementEnd src stop hi = pure (Read.statementEnd src stop hi) := by
  have hmark : Seam src (if (src.slice (stop + ((src.slice stop hi).takeWhile
      fun b => b == space || b == tab).length) hi).head? = some semicolon then _ else _) :=
    Read.seam_semicolon (Read.seam_blanks hstop)
  unfold statementEnd Read.statementEnd
  rw [run_eq _ hhi, pure_bind]
  dsimp only
  rw [peek_eq hhi, pure_bind, cut_eq hmark.le (hmark.boundary hutf8) (Text.isBoundary_length src),
    pure_bind, Text.slice,
    List.take_of_length_le (by simp)]

/-- Whether an import starts at its word is found without a fault. -/
theorem importStarts_eq {i : Nat} (hi : src[i]? = importWord.head?)
    (hlo : lo ≤ i) : importStarts src lo i = pure (Read.importStarts src lo i) := by
  have hbound : src.isBoundary i = true := Text.isBoundary_of_isAscii hi rfl
  have hlt : i < src.length := (List.getElem?_eq_some_iff.mp hi).1
  have hrest : src.slice i src.length = src.drop i := by
    rw [Text.slice, List.take_of_length_le (by simp)]
  unfold importStarts Read.importStarts
  rw [cut_eq (Nat.le_of_lt hlt) hbound (Text.isBoundary_length src), pure_bind, hrest]
  split
  case isTrue hword =>
    rw [Bool.and_eq_true] at hword
    rw [hword.1, hword.2, atLineStart_eq hbound, Bool.true_and, Bool.true_and]
    split
    case isTrue heq =>
      subst heq
      simp
    case isFalse hne =>
      have hin : i - 1 < src.length := by omega
      have hb : src[i - 1]? = some src[i - 1] := List.getElem?_eq_getElem hin
      rw [byteAt_eq hb, hb, beq_false_of_ne (fun h => hne h)]
      simp only [pure_bind, Option.any_some, Bool.false_or]
      split
      case isTrue h => rw [h, Bool.true_and]
      case isFalse h =>
        rw [Bool.not_eq_true] at h
        rw [h, Bool.false_and]
  case isFalse hword =>
    rw [Bool.not_eq_true] at hword
    rw [hword, Bool.false_and, Bool.false_and]

/-- Where the first byte of a class is, as far as a run of the others goes. -/
theorem findIdx?_eq (p : Byte → Bool) (t : Text) : t.findIdx? p =
    if (t.takeWhile fun b => !p b).length < t.length then some (t.takeWhile fun b => !p b).length
    else none := by
  induction t with
  | nil => rfl
  | cons b rest ih =>
    rw [List.findIdx?_cons, ih]
    cases hb : p b with
    | true => simp [hb]
    | false =>
      simp only [Bool.false_eq_true, if_false, hb, Bool.not_false, List.takeWhile_cons_of_pos,
        List.length_cons, Nat.add_lt_add_iff_right]
      split <;> rfl

/-- An import declaration is read without a fault. -/
theorem importAt_eq (hutf8 : Text.isUtf8 src = true) (hlo : importWord <+: src.drop lo)
    (hseam : Seam src lo) (hhi : hi ≤ src.length) :
    importAt src lo hi = pure (Read.importAt src lo hi) := by
  have hsrc := Text.breaks_of_isUtf8 hutf8
  have hstart : Seam src (lo + 6) := hseam.add_length hlo (List.all_eq_true.mp (by decide))
  unfold importAt Read.importAt
  dsimp only
  rw [run_eq _ hhi, pure_bind, findIdx?_eq]
  generalize ((src.slice (lo + 6) hi).takeWhile _).length = k
  split
  case isTrue hlt =>
    have hmark : lo + 6 + k < hi := by
      rw [Text.slice, List.length_take] at hlt
      omega
    obtain ⟨hge, -⟩ | ⟨b, -, hb, hdrop⟩ := byte_cases src (lo + 6 + k)
    · omega
    rw [peek_eq_some hb hmark, pure_bind, Option.bind_eq_bind, Option.bind_some, hdrop]
    dsimp only
    split
    case isTrue hquote =>
      have hascii := Byte.isAscii_of_isQuote hquote
      rw [stringTail_eq, pure_bind]
      cases htail : Scan.stringTail b (src.drop (lo + 6 + k + 1)) with
      | none => rfl
      | some n =>
        obtain ⟨m, rfl, hm⟩ := Scan.getElem?_stringTail htail
        rw [List.getElem?_drop] at hm
        have hopen := Seam.succ_of_isAscii hb hascii
        have hclose := Seam.of_isAscii hm hascii
        have hstop : Seam src (lo + 6 + k + 1 + (m + 1)) := Seam.succ_of_isAscii hm hascii
        have hmark := Seam.of_isAscii hb hascii
        have hclause : (clauseProper (src.slice (lo + 6) (lo + 6 + k))).Breaks :=
          hsrc.of_isInfix ((clauseProper_isInfix _).trans (Text.slice_isInfix ..))
        dsimp only
        rw [show lo + 6 + k + (m + 1) = lo + 6 + k + 1 + m by omega,
          cut_eq (Nat.le_add_right ..) (hopen.boundary hutf8) (hclose.boundary hutf8), pure_bind,
          cut_eq (Nat.le_add_right ..) (hstart.boundary hutf8) (hmark.boundary hutf8), pure_bind,
          clauseBindings_eq hclause, pure_bind, statementEnd_eq hutf8 hstop hhi, pure_bind,
          cut_eq (Nat.le_of_lt (lt_statementEnd ..)) (hseam.boundary hutf8)
            ((seam_statementEnd hstop).boundary hutf8), pure_bind,
          ahead_eq (lt_statementEnd ..), pure_bind, Text.slice, Nat.add_sub_cancel_left]
        rfl
    case isFalse => rfl
  case isFalse hge =>
    rw [Text.slice, List.length_take, List.length_drop] at hge
    rw [peek_eq_none (by omega), pure_bind]
    rfl

/-- Bytes of the tag of a template are ASCII. -/
theorem isAscii_of_tag {b : Byte} (h : (b.isIdentChar || b == dot) = true) : b.isAscii = true := by
  rw [Bool.or_eq_true, beq_iff_eq] at h
  rcases h with hident | rfl
  · exact Byte.isAscii_of_isIdentChar hident
  · rfl

/-- The tag before a template is found without a fault. -/
theorem tagBefore_eq {flushed tick : Nat} (hle : flushed ≤ tick)
    (htick : src.isBoundary tick = true) :
    tagBefore src flushed tick = pure (Read.tagBefore src flushed tick) := by
  have hlength := Text.le_length_of_isBoundary htick
  obtain ⟨-, hslice⟩ := Text.slice_lastRun (fun b => b.isIdentChar || b == dot) hle hlength
  have hstart := Text.isBoundary_lastRun (fun _ => isAscii_of_tag) hle htick
  unfold tagBefore Read.tagBefore
  rw [runStart_eq _ hlength hle, pure_bind, cut_eq (Nat.sub_le ..) hstart htick, pure_bind, hslice]
  generalize ((src.slice flushed tick).reverse.takeWhile fun b => b.isIdentChar || b == dot) = run
    at hslice
  dsimp only
  cases hrun : run.reverse with
  | nil => rfl
  | cons b rest =>
    rw [hrun] at hslice
    rw [byteAt_eq (Scan.getElem?_of_slice_eq_cons hslice), endsWithKeyword_eq]
    simp only [List.isEmpty_cons, Bool.false_eq_true, if_false, pure_bind, List.head?_cons,
      Option.any_some, ← List.not_any_eq_all_not]
    generalize Text.pieces dot (b :: rest) = segments
    cases b.isIdentStart <;> cases segments.any (·.isEmpty) <;> cases segments.length == 1 <;>
      cases Scan.endsWithKeyword (b :: rest) <;> rfl

/-- A tagged template is read without a fault when its readers are. -/
theorem taggedTemplate_eq (hsrc : src.Breaks) (hr : r'.Follows src r) (tag : Ast) {tick : Nat}
    (htick : src[tick]? = some Ascii.tick) :
    taggedTemplate r' src tag lo tick = of (Read.taggedTemplate r src tag lo tick) := by
  have hscan : (templateParts src tick : Checked ReadError _) = pure _ :=
    templateParts_eq hsrc htick
  cases hparts : Scan.templateParts src tick with
  | none =>
    rw [Read.taggedTemplate_none _ _ _ hparts, taggedTemplate, hscan, pure_bind, hparts]
    rfl
  | some parts =>
    obtain ⟨hstop, -, hwithin⟩ := Scan.templateTail_bounds hparts
    rw [hparts] at hscan
    rw [Read.taggedTemplate_some _ _ _ hparts, taggedTemplate, hscan, pure_bind]
    refine bind_eq (expressions_eq hr (Scan.seam_holes hparts) fun s hs => (hwithin s hs).2.1)
      fun holes _ => ?_
    rw [ahead_eq (Nat.lt_of_succ_lt hstop), pure_bind]
    rfl

/-- A tagged template ends at a seam. -/
theorem seam_taggedTemplate {tag : Ast} {tick : Nat} {found : Reading tick}
    (h : Read.taggedTemplate r src tag lo tick = .ok found) : Seam src found.stop := by
  obtain ⟨parts, holes, hparts, -, hstop, -⟩ := taggedTemplate_eq_ok h
  rw [hstop]
  exact (Scan.seam_templateTail hparts).2.1

/-- Reading code makes no access that is not allowed. -/
theorem codeFrom_eq (hutf8 : Text.isUtf8 src = true) (hr : r'.Follows src r) (hnests : r.Nests src)
    {flushed i : Nat} (hflushed : Seam src flushed) (hhi : Rim src hi) (hle : flushed ≤ i)
    (hlo : lo ≤ flushed) :
    codeFrom r' src lo hi flushed i = of (Read.codeFrom r src lo hi flushed i) := by
  have hsrc := Text.breaks_of_isUtf8 hutf8
  induction hn : hi - i using Nat.strongRecOn generalizing flushed i with
  | ind n ih =>
    rw [codeFrom.eq_def, Read.codeFrom.eq_def]
    by_cases hlt : i < hi
    · obtain ⟨hge, -⟩ | ⟨b, -, hb, hdrop⟩ := byte_cases src i
      · have := hhi.seam.le
        omega
      have hrest (j : Nat) (hj : i < j) :
          codeFrom r' src lo hi flushed j = of (Read.codeFrom r src lo hi flushed j) :=
        ih _ (by omega) hflushed (by omega) hlo rfl
      rw [if_pos hlt, if_pos hlt, byteAt_eq hb, pure_bind, hdrop]
      dsimp only
      cases hlead : Scan.lead b (src.drop (i + 1)) with
      | string quote =>
        dsimp only
        rw [stringTail_eq, pure_bind]
        exact hrest _ (by omega)
      | lineComment =>
        dsimp only
        rw [lineTail_eq, pure_bind]
        exact hrest _ (by omega)
      | blockComment =>
        dsimp only
        rw [commentTail_eq, pure_bind, List.drop_drop]
        cases Scan.commentTail (src.drop (i + 1 + 1)) with
        | none => exact opaqueCode_eq hutf8 hflushed hhi.seam
        | some k => exact hrest _ (by omega)
      | template =>
        have htick : src[i]? = some tick := by rw [hb, Scan.eq_tick_of_lead hlead]
        have hbound := Text.isBoundary_of_isAscii htick rfl
        dsimp only
        rw [tagBefore_eq hle hbound, pure_bind]
        cases htag : Read.tagBefore src flushed i with
        | none =>
          dsimp only
          rw [chunkTail_eq hsrc htick, pure_bind]
          cases Scan.closeTail .template [] (src.drop (i + 1)) with
          | none => rfl
          | some k => exact hrest _ (by omega)
        | some tag =>
          obtain ⟨hle', hsum, hseam, hlead, -⟩ :=
            tagBefore_spec htag hle (Text.le_length_of_isBoundary hbound)
          have hslice : src.slice (i - tag.length) i = tag := by
            have h := Text.slice_of_isPrefix hlead
            rwa [hsum] at h
          dsimp only
          rw [opaqueCode_eq hutf8 hflushed hseam, pure_bind,
            cut_eq (Nat.sub_le ..) (hseam.boundary hutf8) hbound, pure_bind, hslice]
          refine bind_eq (taggedTemplate_eq hsrc hr _ htick) fun found hfound => ?_
          have hadv := found.advances
          exact bind_eq (ih _ (by omega) (seam_taggedTemplate hfound) (Nat.le_refl _)
            (by omega) rfl)
            fun more _ => rfl
      | group _ | plain =>
        dsimp only
        -- The pieces behind something that is found at `i`.
        have hgo (found : Reading i) (hseam : Seam src i) (hstop : Seam src found.stop) :
            (do
              let before ← opaqueCode src flushed i
              let more ← codeFrom r' src lo hi found.stop found.stop
              return before ++ found.ast :: more) = of (do
              let more ← Read.codeFrom r src lo hi found.stop found.stop
              return Read.opaqueCode src flushed i ++ found.ast :: more) := by
          have hadv := found.advances
          rw [opaqueCode_eq hutf8 hflushed hseam, pure_bind]
          exact bind_eq (ih _ (by omega) hstop (Nat.le_refl _) (by omega) rfl) fun more _ => rfl
        have hword (h : Read.importStarts src lo i = true) : importWord <+: src.drop i := by
          simp only [Read.importStarts, Bool.and_eq_true] at h
          exact List.isPrefixOf_iff_prefix.mp h.1.1.1
        split
        case isTrue hhead =>
          rw [importStarts_eq (hb.trans hhead.symm) (Nat.le_trans hlo hle), pure_bind]
          have hseam : Seam src i := .of_isAscii (hb.trans hhead.symm) rfl
          have hless : b ≠ less := by
            rintro rfl
            exact absurd hhead (by decide)
          split
          case isTrue hstarts =>
            rw [importAt_eq hutf8 (hword hstarts) hseam hhi.seam.le, pure_bind]
            cases hfound : Read.importAt src i hi with
            | none => exact hrest _ (by omega)
            | some found =>
              obtain ⟨hnested, hspan, -⟩ := nested_importAt hseam hfound
              exact hgo found hseam (seam_stop hnested hspan)
          case isFalse =>
            rw [if_neg fun h => hless h.1]
            exact hrest _ (by omega)
        case isFalse hhead =>
          have hnone : Read.importStarts src lo i = false := by
            rw [Bool.eq_false_iff]
            intro h
            obtain ⟨rest, hrest⟩ := hword h
            rw [hdrop] at hrest
            exact hhead (congrArg List.head? hrest)
          rw [hnone, if_neg Bool.false_ne_true]
          split
          case isTrue hless =>
            subst hless
            have hseam : Seam src i := .of_isAscii hb rfl
            rw [markupMayStart_eq (hseam.boundary hutf8), pure_bind]
            split
            case isTrue hmarkup =>
              rw [if_pos ⟨rfl, hmarkup⟩]
              refine bind_eq (hr.element hb hhi) fun found? hfound => ?_
              cases found? with
              | none => exact hrest _ (by omega)
              | some found =>
                obtain ⟨hnested, hspan, -⟩ := hnests.element hb hhi hfound
                exact hgo found hseam (seam_stop hnested hspan)
            case isFalse hmarkup =>
              rw [if_neg fun h => hmarkup h.2]
              exact hrest _ (by omega)
          case isFalse hless =>
            rw [if_neg fun h => hless h.1]
            exact hrest _ (by omega)
    · rw [if_neg hlt, if_neg hlt]
      exact opaqueCode_eq hutf8 hflushed hhi.seam

end

end Checked

end JsxStyle
