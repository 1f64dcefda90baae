import JsxStyle.Proofs.Faults
import JsxStyle.Proofs.Scanners

/-!
# Reading ends

Expressions contain elements and elements contain expressions, a range may be
looked at twice, and what is found in it may end behind it, so no range gets
shorter.  What decreases is the text behind the place where a call begins.  An
element begins with its `<` and what it contains begins later; an expression may
begin with an element at the same place, and weighs more than it does.

A reader is compared with itself under two pairs of readers to call: if these
agree on the calls of less weight, its answers are the same.  So there is one pair
of readers that answers its own calls, and the readers of a module, which are cut
off at a depth, are that pair.  The loops of the readers need no such argument:
each goes on behind what it has just read, which lies ahead of where it began.

* `Call.Alike.next`: an answer depends on answers to calls of less weight;
* `next_eq_self_iff`: there is one pair of readers that answers its own calls;
* `reading_ends`: the same for the scanners, and no reading is cut off.
-/

namespace JsxStyle

namespace Read

open Ast

/-- Two pairs of readers with the same answers about expressions that begin at
`p` or later and about elements that begin at `q` or later. -/
structure AgreeFrom (p q : Nat) (r r' : Readers) : Prop where
  expression : ∀ {lo : Nat} (hi : Nat), p ≤ lo → r.expression lo hi = r'.expression lo hi
  element : ∀ {lo : Nat} (hi : Nat), q ≤ lo → r.element lo hi = r'.element lo hi

namespace AgreeFrom

variable {r r' : Readers} {src : Text} {p q p' q' lo hi : Nat}

theorem mono (h : AgreeFrom p q r r') (hp : p ≤ p') (hq : q ≤ q') : AgreeFrom p' q' r r' :=
  ⟨fun hi hlo => h.expression hi (Nat.le_trans hp hlo),
    fun hi hlo => h.element hi (Nat.le_trans hq hlo)⟩

/-- Readers that agree behind a place give the same expressions for the ranges behind it. -/
theorem expressions_eq (h : AgreeFrom p q r r') {ranges : List Span}
    (hranges : InOrder some p hi ranges) : r.expressions ranges = r'.expressions ranges := by
  have hlo : ∀ s ∈ ranges, p ≤ s.lo := by
    intro s hs
    obtain ⟨s', hs', hlo, -⟩ := hranges.mem hs
    obtain rfl := Option.some.inj hs'
    exact hlo
  clear hranges
  induction ranges with
  | nil => rfl
  | cons s rest ih =>
    obtain ⟨hs, hrest⟩ := List.forall_mem_cons.mp hlo
    have hmore := ih hrest
    unfold Readers.expressions at hmore ⊢
    rw [List.mapM_cons, List.mapM_cons, h.expression s.hi hs, hmore]

/-- A tagged template depends on what is asked behind its backtick only. -/
theorem taggedTemplate_eq {tick : Nat} (h : AgreeFrom (tick + 1) q r r') (tag : Ast) (lo : Nat) :
    taggedTemplate r src tag lo tick = taggedTemplate r' src tag lo tick := by
  cases hparts : Scan.templateParts src tick with
  | none => rw [taggedTemplate_none _ _ _ hparts, taggedTemplate_none _ _ _ hparts]
  | some parts =>
    rw [taggedTemplate_some _ _ _ hparts, taggedTemplate_some _ _ _ hparts,
      h.expressions_eq (Scan.seam_templateTail hparts).1]

/-- Code read from an offset depends on expressions behind it and elements from it on. -/
theorem codeFrom_eq {flushed i : Nat} (h : AgreeFrom (i + 1) i r r') :
    codeFrom r src lo hi flushed i = codeFrom r' src lo hi flushed i := by
  -- Both sides look at the same bytes; what is left to compare begins further on.
  have hstep {flushed' i' : Nat} (hlt : i < i') (hin : i < hi) :
      codeFrom r src lo hi flushed' i' = codeFrom r' src lo hi flushed' i' :=
    codeFrom_eq (h.mono (by omega) (by omega))
  conv_lhs => rw [codeFrom]
  conv_rhs => rw [codeFrom]
  split
  case isFalse => rfl
  case isTrue hin =>
    cases src.drop i with
    | nil => rfl
    | cons b rest =>
      dsimp only
      cases Scan.lead b rest with
      | string quote => exact hstep (by omega) hin
      | lineComment => exact hstep (by omega) hin
      | blockComment =>
        dsimp only
        cases Scan.commentTail (rest.drop 1) with
        | none => rfl
        | some n => exact hstep (by omega) hin
      | template =>
        dsimp only
        cases tagBefore src flushed i with
        | some tag =>
          dsimp only
          rw [h.taggedTemplate_eq]
          refine bind_congr fun found => ?_
          rw [hstep found.advances hin]
        | none =>
          dsimp only
          cases Scan.closeTail .template [] rest with
          | none => rfl
          | some n => exact hstep (by omega) hin
      | group _ | plain =>
        dsimp only
        split
        case isTrue =>
          cases importAt src i hi with
          | some found =>
            dsimp only
            rw [hstep found.advances hin]
          | none => exact hstep (by omega) hin
        case isFalse =>
          split
          case isTrue =>
            rw [h.element _ (Nat.le_refl _)]
            refine bind_congr fun found => ?_
            cases found with
            | none => exact hstep (by omega) hin
            | some found =>
              dsimp only
              rw [hstep found.advances hin]
          case isFalse => exact hstep (by omega) hin
termination_by hi - i

/-- A stretch of code depends on expressions behind its start and elements from it on. -/
theorem code_eq (h : AgreeFrom (lo + 1) lo r r') : code r src lo hi = code r' src lo hi :=
  h.codeFrom_eq

/-- The expression of a container depends on what is asked inside the braces. -/
theorem containerExpression_eq (h : AgreeFrom lo q r r') :
    containerExpression r src lo hi = containerExpression r' src lo hi := by
  unfold containerExpression
  rw [h.expression hi (Nat.le_refl _)]

/-- An attribute depends on what is asked behind its first byte. -/
theorem attributeAt_eq {nameStop : Nat} {hlo : lo < nameStop}
    (h : AgreeFrom (lo + 1) (lo + 1) r r') :
    attributeAt r src lo nameStop hi hlo = attributeAt r' src lo nameStop hi hlo := by
  have heq : nameStop ≤ Scan.skipSpace src nameStop hi := Scan.le_skipSpace ..
  have hvalue : Scan.skipSpace src nameStop hi + 1 ≤
      Scan.skipSpace src (Scan.skipSpace src nameStop hi + 1) hi := Scan.le_skipSpace ..
  unfold attributeAt
  dsimp only
  split
  · split
    · rfl
    · split
      · rfl
      · split
        · split
          · rfl
          · rw [(h.mono (by omega) (Nat.le_refl _)).containerExpression_eq]
        · split
          · rw [h.element _ (by omega)]
          · rfl
  · rfl

/-- The rest of an opening tag depends on what is asked behind its first byte. -/
theorem tagTail_eq {pos : Nat} (h : AgreeFrom (pos + 1) (pos + 1) r r') :
    tagTail r src hi pos = tagTail r' src hi pos := by
  have hstep {pos' : Nat} (hlt : pos < pos') (hin : pos < hi) :
      tagTail r src hi pos' = tagTail r' src hi pos' :=
    tagTail_eq (h.mono (by omega) (by omega))
  have hhere : pos ≤ Scan.skipSpace src pos hi := Scan.le_skipSpace ..
  conv_lhs => rw [tagTail]
  conv_rhs => rw [tagTail]
  dsimp only
  split
  case isFalse => rfl
  case isTrue hin =>
    have hpos : pos < hi := by omega
    cases src.drop (Scan.skipSpace src pos hi) with
    | nil => rfl
    | cons b rest =>
      dsimp only
      -- The two ends of a tag ask nothing.
      iterate 2
        refine ite_congr rfl (fun _ => rfl) fun _ => ?_
      split
      case isTrue =>
        cases Scan.closeTail (.group Ascii.closeBrace) [] rest with
        | none => rfl
        | some n =>
          dsimp only
          split
          case isTrue =>
            have hinner := Scan.le_skipSpace src (Scan.skipSpace src pos hi + 1)
              (Scan.skipSpace src pos hi + n)
            rw [hstep (by omega) hpos, h.expression _ (by omega)]
          case isFalse => rfl
      case isFalse =>
        split
        case isTrue =>
          rw [(h.mono (by omega) (by omega)).attributeAt_eq]
          refine bind_congr fun attr => ?_
          cases attr with
          | none => rfl
          | some attr =>
            have hadv := attr.advances
            dsimp only
            rw [hstep (by omega) hpos]
        case isFalse => rfl
termination_by hi - pos

/-- The content of an element depends on expressions behind its start and elements from it on. -/
theorem content_eq {name : Text} {pos : Nat} (h : AgreeFrom (pos + 1) pos r r') :
    content r src name lo hi pos = content r' src name lo hi pos := by
  have hstep {pos' : Nat} (hlt : pos < pos') (hin : pos < hi) :
      content r src name lo hi pos' = content r' src name lo hi pos' :=
    content_eq (h.mono (by omega) (by omega))
  conv_lhs => rw [content]
  conv_rhs => rw [content]
  split
  case isFalse => rfl
  case isTrue hin =>
    cases src.drop pos with
    | nil => rfl
    | cons b rest =>
      dsimp only
      refine ite_congr rfl (fun _ => rfl) fun _ => ?_
      split
      case isTrue =>
        rw [h.element _ (Nat.le_refl _)]
        refine bind_congr fun child => ?_
        cases child with
        | none => rfl
        | some child =>
          dsimp only
          rw [hstep child.advances hin]
      case isFalse =>
        split
        case isTrue =>
          cases Scan.closeTail (.group Ascii.closeBrace) [] rest with
          | none => rfl
          | some n =>
            dsimp only
            rw [(h.mono (Nat.le_refl _) (Nat.le_refl _)).containerExpression_eq,
              hstep (by omega) hin]
        case isFalse => rw [hstep (by omega) hin]
termination_by hi - pos

/-- An element depends on what is asked behind its `<`. -/
theorem element_eq (h : AgreeFrom (lo + 1) (lo + 1) r r') :
    Read.element r src lo hi = Read.element r' src lo hi := by
  have hname : lo + 1 ≤ Scan.nameEnd src (lo + 1) := Scan.le_nameEnd ..
  unfold Read.element
  dsimp only
  -- Where there is no tag nothing is asked.
  iterate 2
    refine ite_congr rfl (fun _ => rfl) fun _ => ?_
  rw [(h.mono (by omega) (by omega)).tagTail_eq]
  refine bind_congr fun tag => ?_
  cases tag with
  | none => rfl
  | some tag =>
    have hadv := tag.advances
    dsimp only
    rw [(h.mono (by omega) (by omega)).content_eq]

/-- A chain depends on the expressions behind the place it goes on from. -/
theorem chain_eq {operand : Ast} {pos : Nat} {hlo : lo < pos} (h : AgreeFrom (pos + 1) q r r') :
    chain r src lo hi operand pos hlo = chain r' src lo hi operand pos hlo := by
  have hstep {operand' : Ast} {pos' : Nat} {hlo' : lo < pos'} (hlt : pos < pos') (hin : pos < hi) :
      chain r src lo hi operand' pos' hlo' = chain r' src lo hi operand' pos' hlo' :=
    chain_eq (h.mono (by omega) (Nat.le_refl _))
  conv_lhs => rw [chain]
  conv_rhs => rw [chain]
  split
  case isFalse => rfl
  case isTrue hin =>
    cases src.drop pos with
    | nil => rfl
    | cons b rest =>
      dsimp only
      refine ite_congr rfl (fun _ => hstep (by omega) hin) fun _ => ?_
      split
      case isTrue =>
        cases hclose : Scan.closeTail (.group Ascii.closeParen) [] rest with
        | none => rfl
        | some n =>
          have hopen := (Scan.closeTail_bounds hclose).1
          dsimp only
          refine ite_congr rfl (fun _ => ?_) fun _ => rfl
          cases hsegments : Scan.segments src (pos + 1) (pos + n) with
          | none => rfl
          | some ranges =>
            dsimp only
            rw [h.expressions_eq (Scan.inOrder_segmentsFrom hsegments (Nat.le_refl _) (by omega))]
            exact bind_congr fun arguments => hstep (by omega) hin
      case isFalse =>
        refine ite_congr rfl (fun _ => ?_) fun _ => rfl
        cases Scan.templateEnd src pos with
        | none => rfl
        | some stop =>
          dsimp only
          rw [h.taggedTemplate_eq]
          refine ite_congr rfl (fun _ => ?_) fun _ => rfl
          exact bind_congr fun tagged => hstep tagged.advances hin
termination_by hi - pos

/-- An operand depends on expressions behind its start and elements from it on. -/
theorem operand_eq (h : AgreeFrom (lo + 1) lo r r') :
    operand r src lo hi = operand r' src lo hi := by
  have hchain {operand : Ast} {pos : Nat} {hlo : lo < pos} :
      chain r src lo hi operand pos hlo = chain r' src lo hi operand pos hlo :=
    (h.mono (by omega) (Nat.le_refl _)).chain_eq
  unfold operand
  cases src.drop lo with
  | nil => rfl
  | cons b rest =>
    dsimp only
    split
    case isTrue =>
      cases Scan.stringTail b rest with
      | none => rfl
      | some n =>
        dsimp only
        rw [hchain]
    case isFalse =>
      split
      case isTrue =>
        cases hclose : Scan.closeTail (.group Ascii.closeBracket) [] rest with
        | none => rfl
        | some n =>
          have hopen := (Scan.closeTail_bounds hclose).1
          dsimp only
          refine ite_congr rfl (fun _ => ?_) fun _ => rfl
          cases hsegments : Scan.segments src (lo + 1) (lo + n) with
          | none => rfl
          | some ranges =>
            dsimp only
            rw [h.expressions_eq (Scan.inOrder_segmentsFrom hsegments (Nat.le_refl _) (by omega))]
            exact bind_congr fun elements => hchain
      case isFalse =>
        refine ite_congr rfl (fun _ => h.element _ (Nat.le_refl _)) fun _ => ?_
        rw [hchain]

/-- An expression depends on expressions behind its start and elements from it on. -/
theorem expression_eq (h : AgreeFrom (lo + 1) lo r r') :
    Read.expression r src lo hi = Read.expression r' src lo hi := by
  have hlo : lo ≤ (shrink src lo hi).lo := Scan.le_skipSpace ..
  have h : AgreeFrom ((shrink src lo hi).lo + 1) (shrink src lo hi).lo r r' :=
    h.mono (by omega) hlo
  unfold Read.expression
  dsimp only
  rw [h.operand_eq, h.code_eq]

end AgreeFrom

/-- A call of a reader: which one, and the range it is given. -/
inductive Call where
  | expression (lo hi : Nat)
  | element (lo hi : Nat)

namespace Call

/-- What is left of the text where a call begins; an expression weighs more than
an element at the same place, which it may begin with. -/
def weight (src : Text) : Call → Nat
  | expression lo _ => 2 * (src.length - lo) + 1
  | element lo _ => 2 * (src.length - lo)

/-- Two pairs of readers answer a call alike. -/
def Alike (r r' : Readers) : Call → Prop
  | expression lo hi => r.expression lo hi = r'.expression lo hi
  | element lo hi => r.element lo hi = r'.element lo hi

end Call

/-- The two readers, each of which hands the calls it makes to `r`. -/
def Readers.next (src : Text) (r : Readers) : Readers where
  expression := Read.expression r src
  element := Read.element r src

variable {r r' : Readers} {src : Text}

/-- Readers that answer every call alike are the same. -/
theorem Readers.eq_of_alike (h : ∀ c : Call, c.Alike r r') : r = r' := by
  have hexpression : r.expression = r'.expression :=
    funext fun lo => funext fun hi => h (.expression lo hi)
  have helement : r.element = r'.element := funext fun lo => funext fun hi => h (.element lo hi)
  cases r
  cases r'
  congr

/-- Behind the text every expression is empty. -/
theorem expression_of_length_le {lo : Nat} (hi : Nat) (h : src.length ≤ lo) :
    expression r src lo hi = .ok (Ast.placed lo hi (.fragment [])) := by
  have hslice : src.slice lo hi = [] := by
    rw [Text.slice, List.drop_eq_nil_of_le h, List.take_nil]
  have hlo : Scan.skipSpace src lo hi = lo := by
    rw [Scan.skipSpace, hslice]
    rfl
  unfold expression shrink
  dsimp only
  rw [hlo, hslice, if_pos (by rfl)]
  rfl

/-- Behind the text there is no element. -/
theorem element_of_length_le {lo : Nat} (hi : Nat) (h : src.length ≤ lo) :
    element r src lo hi = .ok none := by
  have hname : Scan.nameEnd src (lo + 1) = lo + 1 := by
    rw [Scan.nameEnd, List.drop_eq_nil_of_le (Nat.le_succ_of_le h)]
    rfl
  have hend : src[lo + 1]? = none := List.getElem?_eq_none (Nat.le_succ_of_le h)
  unfold element
  dsimp only
  split
  · rfl
  · rw [if_pos ⟨hname, by simp [hend]⟩]
    rfl

/-- What the readers answer to a call depends only on what they are answered to
calls of less weight. -/
theorem Call.Alike.next {c : Call}
    (h : ∀ c' : Call, c'.weight src < c.weight src → c'.Alike r r') :
    c.Alike (r.next src) (r'.next src) := by
  cases c with
  | expression lo hi =>
    show Read.expression r src lo hi = Read.expression r' src lo hi
    rcases Nat.lt_or_ge lo src.length with hin | hout
    · apply AgreeFrom.expression_eq
      constructor
      · intro lo' hi' hlo
        exact h (.expression lo' hi') (by simp only [weight]; omega)
      · intro lo' hi' hlo
        exact h (.element lo' hi') (by simp only [weight]; omega)
    · rw [expression_of_length_le hi hout, expression_of_length_le hi hout]
  | element lo hi =>
    show Read.element r src lo hi = Read.element r' src lo hi
    rcases Nat.lt_or_ge lo src.length with hin | hout
    · apply AgreeFrom.element_eq
      constructor
      · intro lo' hi' hlo
        exact h (.expression lo' hi') (by simp only [weight]; omega)
      · intro lo' hi' hlo
        exact h (.element lo' hi') (by simp only [weight]; omega)
    · rw [element_of_length_le hi hout, element_of_length_le hi hout]

/-- Readers that look deep enough all answer alike. -/
theorem agreeFrom_readers {depth depth' p : Nat} (h : src.length - p < depth)
    (h' : src.length - p < depth') : AgreeFrom p p (readers src depth) (readers src depth') := by
  induction depth generalizing depth' p with
  | zero => omega
  | succ d ih =>
    obtain ⟨d', rfl⟩ : ∃ d', depth' = d' + 1 := ⟨depth' - 1, by omega⟩
    have helement {lo : Nat} (hi : Nat) (hlo : p ≤ lo) :
        element (readers src d) src lo hi = element (readers src d') src lo hi := by
      rcases Nat.lt_or_ge lo src.length with hin | hout
      · exact (ih (p := lo + 1) (by omega) (by omega)).element_eq
      · rw [element_of_length_le hi hout, element_of_length_le hi hout]
    refine ⟨fun {lo} hi hlo => ?_, fun hi hlo => helement hi hlo⟩
    show Read.expression _ src lo hi = Read.expression _ src lo hi
    rcases Nat.lt_or_ge lo src.length with hin | hout
    · apply AgreeFrom.expression_eq
      have hbelow : AgreeFrom (lo + 1) (lo + 1) (readers src d) (readers src d') :=
        ih (by omega) (by omega)
      exact ⟨hbelow.expression, fun hi' hlo' => helement hi' (Nat.le_trans hlo hlo')⟩
    · rw [expression_of_length_le hi hout, expression_of_length_le hi hout]

/-- All depths beyond the length of the text are the same. -/
theorem readers_eq {depth depth' : Nat} (h : src.length < depth) (h' : src.length < depth') :
    readers src depth = readers src depth' := by
  have hagree := agreeFrom_readers (p := 0) h h'
  apply Readers.eq_of_alike
  intro c
  cases c with
  | expression lo hi => exact hagree.expression hi (Nat.zero_le lo)
  | element lo hi => exact hagree.element hi (Nat.zero_le lo)

/-- The readers of a module are what they answer with calls to each other. -/
theorem next_readers (src : Text) :
    (readers src (src.length + 1)).next src = readers src (src.length + 1) := by
  have hdeep : readers src (src.length + 1) = readers src (src.length + 2) :=
    readers_eq (by omega) (by omega)
  have helement :
      (readers src (src.length + 1)).element = element (readers src (src.length + 1)) src := by
    conv_lhs => rw [hdeep]
    rfl
  conv_rhs => rw [hdeep]
  show Readers.mk _ _ = Readers.mk _ _
  rw [← helement]

/-- There is one pair of readers that answers the calls it makes. -/
theorem next_eq_self_iff : r.next src = r ↔ r = readers src (src.length + 1) := by
  constructor
  · intro hfixed
    apply Readers.eq_of_alike
    intro c
    induction hweight : c.weight src using Nat.strongRecOn generalizing c with
    | ind weight ih =>
      rw [← hfixed, ← next_readers src]
      exact Call.Alike.next fun c' hlt => ih _ (hweight ▸ hlt) c' rfl
  · rintro rfl
    exact next_readers src

/-- Where every error of the readers has a cause, so has every error of those that call them. -/
theorem Readers.Grounded.next {r : Readers} {src : Text} (hr : r.Grounded src) :
    (r.next src).Grounded src :=
  ⟨fun h => grounded_expression hr h, fun hlo h => grounded_element hr hlo h⟩

/-- The readers that answer like `r` where less than `weight` is left, and find
nothing elsewhere. -/
def Readers.below (src : Text) (weight : Nat) (r : Readers) : Readers where
  expression lo hi :=
    if (Call.expression lo hi).weight src < weight then r.expression lo hi
    else .ok (placed lo hi (.fragment []))
  element lo hi :=
    if (Call.element lo hi).weight src < weight then r.element lo hi else .ok none

/-- Below a weight the restricted readers answer like the readers themselves. -/
theorem Call.Alike.below {c : Call} {r : Readers} {src : Text} {weight : Nat}
    (h : c.weight src < weight) : c.Alike r (r.below src weight) := by
  cases c <;> exact (if_pos h).symm

/-- Readers that answer the calls they make have a cause for every error. -/
theorem Readers.Grounded.of_next_eq {r : Readers} {src : Text} (hfixed : r.next src = r) :
    r.Grounded src := by
  -- The induction is on the weight: what a call of a weight asks for is below it.
  have hbelow (weight : Nat) : (r.below src weight).Grounded src := by
    induction weight with
    | zero => exact ⟨fun h => absurd h (by simp [Readers.below]),
        fun _ h => absurd h (by simp [Readers.below])⟩
    | succ weight ih =>
      have halike (c : Call) (hc : c.weight src < weight + 1) :
          c.Alike r ((r.below src weight).next src) := by
        have hnext : c.Alike (r.next src) ((r.below src weight).next src) :=
          Call.Alike.next fun c' hlt =>
            Call.Alike.below (Nat.lt_of_lt_of_le hlt (Nat.le_of_lt_succ hc))
        rwa [hfixed] at hnext
      constructor
      · intro lo hi e h
        simp only [Readers.below] at h
        split at h
        case isTrue hlt => exact ih.next.expression ((halike (.expression lo hi) hlt).symm.trans h)
        case isFalse => exact absurd h (by simp)
      · intro lo hi e hless h
        simp only [Readers.below] at h
        split at h
        case isTrue hlt => exact ih.next.element hless ((halike (.element lo hi) hlt).symm.trans h)
        case isFalse => exact absurd h (by simp)
  constructor
  · intro lo hi e h
    have hsame : (Call.expression lo hi).Alike r (r.below src _) := .below (Nat.lt_succ_self _)
    exact (hbelow _).expression (hsame.symm.trans h)
  · intro lo hi e hless h
    have hsame : (Call.element lo hi).Alike r (r.below src _) := .below (Nat.lt_succ_self _)
    exact (hbelow _).element hless (hsame.symm.trans h)

/-- Every error of the readers of a module has a cause in the source. -/
theorem grounded_readers (src : Text) : (readers src (src.length + 1)).Grounded src :=
  .of_next_eq (next_readers src)

/-- Every error of reading a module has a cause in the text. -/
theorem grounded_program {src : Text} {e : ReadError} (h : program src = .error e) :
    e.Grounded src :=
  grounded_codeFrom (grounded_readers src) h

/-- Every error of reading a snippet has a cause in the text. -/
theorem grounded_snippet {src : Text} {e : ReadError} (h : snippet src = .error e) :
    e.Grounded src :=
  (grounded_readers src).expression (map_eq_error.mp h)

/-- Reading ends: what a reader or a scanner answers depends only on answers to
calls that have less of the text left, so that there is exactly one way to answer
all of them; the readers of a module give these answers, whatever depth beyond the
length of the text they are cut off at, and never give up. -/
theorem reading_ends (src : Text) :
    (∀ (s s' : Scan.Scanners) (pos : Nat),
      (∀ pos', src.length - pos' < src.length - pos → s.AgreeAt s' pos') →
        (s.next src).AgreeAt (s'.next src) pos) ∧
    (∀ s : Scan.Scanners, s.next src = s ↔ s = Scan.scanners src) ∧
    (∀ (r r' : Readers) (c : Call),
      (∀ c' : Call, c'.weight src < c.weight src → c'.Alike r r') →
        c.Alike (r.next src) (r'.next src)) ∧
    (∀ r : Readers, r.next src = r ↔ r = readers src (src.length + 1)) ∧
    (∀ depth, src.length < depth → readers src depth = readers src (src.length + 1)) ∧
    (∀ e, program src = .error e → e.cause ≠ .tooDeep) ∧
    (∀ e, snippet src = .error e → e.cause ≠ .tooDeep) :=
  ⟨fun _ _ _ => Scan.Scanners.AgreeAt.next, fun _ => Scan.next_eq_self_iff,
    fun _ _ _ => Call.Alike.next, fun _ => next_eq_self_iff,
    fun _ h => readers_eq h (Nat.lt_succ_self _), fun _ h => (grounded_program h).cause,
    fun _ h => (grounded_snippet h).cause⟩

end Read

end JsxStyle
