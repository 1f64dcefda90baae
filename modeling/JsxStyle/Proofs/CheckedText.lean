import JsxStyle.Proofs.CheckedScan
import JsxStyle.Scan.Context
import JsxStyle.Scan.Mention
import JsxStyle.Text.Position
import Mathlib.Data.List.Induction

/-!
# Checked looks back and around

What the code before an offset tells, whether code mentions a name, and the line and column
of an offset, with a check of every access.  Looking back goes over runs of ASCII bytes,
which begin between characters.

* `slice_lastRun`: the run that a range ends with is what is cut out of its end;
* `mentionsFrom_eq`: the search for a name, which cuts out the holes of templates;
* `positionAt_eq`: a position is the number of lines and the length of the last one.
-/

namespace JsxStyle

namespace Checked

open Ascii

variable {ε : Type}

/-- The offset at which the run of bytes of a class that ends at `stop` begins, at least `floor`. -/
def runStart (p : Byte → Bool) (t : Text) (floor : Nat) : (stop : Nat) → Checked ε Nat
  | 0 => return 0
  | stop + 1 =>
    if floor < stop + 1 then do
      let b ← byteAt t stop
      if p b then runStart p t floor stop else return stop + 1
    else return stop + 1

/-- Whether a text ends with a keyword after which an expression begins. -/
def endsWithKeyword (code : Text) : Checked ε Bool := do
  let start ← runStart Byte.isIdentChar code 0 code.length
  return Scan.expressionKeywords.contains (← cut code start code.length)

/-- Whether a `<` at `pos` may begin markup. -/
def markupMayStart (src : Text) (pos : Nat) : Checked ε Bool := do
  let before := (← cut src 0 pos).trimEnd
  match before.getLast? with
  | none => return true
  | some last =>
    if Scan.expressionOpeners.contains last then return true
    else if last.isIdentChar then endsWithKeyword before
    else return false

/-- Whether only white space stands between the previous line feed and `pos`. -/
def atLineStart (src : Text) (pos : Nat) : Checked ε Bool := do
  let before ← cut src 0 pos
  return Text.isBlank (before.reverse.takeWhile (· != newline)).reverse

/-- Whether the part of `code` from offset `i` on mentions `name`. -/
def mentionsFrom (name code : Text) (i : Nat) : Checked ε Bool :=
  if i < code.length then do
    let b ← byteAt code i
    match Scan.lead b (code.drop (i + 1)) with
    | .string quote =>
      let n ← stringTail quote code (i + 1)
      mentionsFrom name code (i + 1 + n.getD 0)
    | .lineComment =>
      let n ← lineTail code (i + 1)
      mentionsFrom name code (i + 1 + n)
    | .blockComment =>
      match ← commentTail code (i + 2) with
      | none => return false
      | some n => mentionsFrom name code (i + 2 + n)
    | .template =>
      match ← templateParts code i with
      | none => mentionsFrom name code (i + 1)
      | some parts =>
        let found ← parts.holes.anyM fun hole => do
          let inner ← cut code hole.lo hole.hi
          let ⟨_⟩ ← ahead inner.length code.length
          mentionsFrom name inner 0
        if found then return true
        else
          let ⟨_⟩ ← ahead i parts.stop
          mentionsFrom name code parts.stop
    | .group _ | .plain =>
      if b.isIdentStart then
        let n ← nameLength Byte.isIdentChar code i
        let before ← cut code 0 i
        let word ← cut code i (i + n)
        if !Scan.afterDot before && word == name then return true
        else
          let ⟨_⟩ ← ahead i (i + n)
          mentionsFrom name code (i + n)
      else if b.isIdentChar then
        let n ← run Byte.isIdentChar code (i + 1) code.length
        mentionsFrom name code (i + 1 + n)
      else mentionsFrom name code (i + 1)
  else return false
termination_by (code.length, code.length - i)

/-- The position of an offset: the lines before it, and the characters of the last one. -/
def positionAt (src : Text) (offset : Nat) : Checked ε Position := do
  let before ← cut src 0 (min offset src.length)
  let start := before.length - (before.reverse.takeWhile (· != newline)).length
  let line ← cut before start before.length
  return ⟨before.count newline + 1, (line.filter (!·.isContinuation)).length + 1⟩

end Checked

/-- The end of a range lies between characters. -/
theorem Rim.isBoundary {src : Text} {hi : Nat} (h : Rim src hi) : src.isBoundary hi = true := by
  rcases h with rfl | ⟨b, hb, hclass⟩
  · exact Text.isBoundary_length src
  · refine Text.isBoundary_of_isAscii hb ?_
    rcases hclass with hcloser | rfl | hspace
    · exact Byte.isAscii_of_isCloser hcloser
    · rfl
    · exact Byte.isAscii_of_isSpace hspace

namespace Text

/-- What is left of a range behind some of its bytes. -/
theorem slice_add (t : Text) (lo k hi : Nat) : t.slice (lo + k) hi = (t.slice lo hi).drop k := by
  rw [slice, slice, List.drop_take, List.drop_drop, Nat.sub_add_eq]

/-- The run of bytes of a class that a range ends with is what stands at its end. -/
theorem slice_lastRun (p : Byte → Bool) {t : Text} {lo hi : Nat} (hle : lo ≤ hi)
    (hhi : hi ≤ t.length) :
    ((t.slice lo hi).reverse.takeWhile p).length ≤ hi - lo ∧
      t.slice (hi - ((t.slice lo hi).reverse.takeWhile p).length) hi =
        ((t.slice lo hi).reverse.takeWhile p).reverse := by
  obtain ⟨kept, hkept⟩ : ((t.slice lo hi).reverse.takeWhile p).reverse <:+ t.slice lo hi := by
    rw [← List.reverse_prefix, List.reverse_reverse]
    exact List.takeWhile_prefix p
  generalize (t.slice lo hi).reverse.takeWhile p = run at hkept
  have hlength : kept.length + run.length = hi - lo := by
    have h := congrArg List.length hkept
    rw [List.length_append, List.length_reverse, slice, List.length_take, List.length_drop] at h
    omega
  refine ⟨by omega, ?_⟩
  rw [show hi - run.length = lo + kept.length by omega, slice_add, ← hkept, List.drop_left]

/-- If such a class has ASCII bytes only, the run begins between characters. -/
theorem isBoundary_lastRun {p : Byte → Bool} (hp : ∀ b, p b = true → b.isAscii = true) {t : Text}
    {lo hi : Nat} (hle : lo ≤ hi) (hhi : t.isBoundary hi = true) :
    t.isBoundary (hi - ((t.slice lo hi).reverse.takeWhile p).length) = true := by
  obtain ⟨-, hslice⟩ := slice_lastRun p hle (le_length_of_isBoundary hhi)
  have hall : ∀ b ∈ (t.slice lo hi).reverse.takeWhile p, b.isAscii = true :=
    fun b hb => hp b (List.all_eq_true.mp List.all_takeWhile b hb)
  generalize (t.slice lo hi).reverse.takeWhile p = run at hslice hall
  cases hrun : run.reverse with
  | nil =>
    rw [List.reverse_eq_nil_iff.mp hrun]
    exact hhi
  | cons b rest =>
    rw [hrun] at hslice
    exact isBoundary_of_isAscii (Scan.getElem?_of_slice_eq_cons hslice)
      (hall b (List.mem_reverse.mp (hrun ▸ List.mem_cons_self)))

/-- Reading a text from its beginning counts its lines and the characters of the last one. -/
theorem foldl_advance (t : Text) : t.foldl Position.advance {} =
    ⟨t.count Ascii.newline + 1,
      ((t.reverse.takeWhile (· != Ascii.newline)).reverse.filter (!·.isContinuation)).length +
        1⟩ := by
  induction t using List.reverseRecOn with
  | nil => rfl
  | append_singleton init b ih =>
    rw [List.foldl_append, List.foldl_cons, List.foldl_nil, ih, Position.advance,
      List.reverse_append, List.reverse_singleton, List.singleton_append, List.count_append]
    split
    case isTrue hb =>
      subst hb
      rfl
    case isFalse hb =>
      have hrun : (b :: init.reverse).takeWhile (· != Ascii.newline) =
          b :: init.reverse.takeWhile (· != Ascii.newline) :=
        List.takeWhile_cons_of_pos (by simpa using hb)
      have hcount : [b].count Ascii.newline = 0 :=
        List.count_eq_zero.mpr (by simpa using Ne.symm hb)
      rw [hrun, hcount, List.reverse_cons, List.filter_append, List.length_append, Nat.add_zero]
      split
      case isTrue hcontinuation => simp [hcontinuation]
      case isFalse hcontinuation => simp [hcontinuation]

end Text

namespace Scan

open Ascii

variable {name code rest : Text} {b : Byte} {i : Nat}

theorem mentionsFrom_nil (h : code.drop i = []) : mentionsFrom name code i = false := by
  rw [mentionsFrom]
  split
  case h_1 => rfl
  case h_2 hcons => exact absurd (h.symm.trans hcons) (by simp)

/-- One step of the search for a name. -/
theorem mentionsFrom_cons (h : code.drop i = b :: rest) : mentionsFrom name code i =
    match lead b rest with
    | .string quote => mentionsFrom name code (i + 1 + (stringTail quote rest).getD 0)
    | .lineComment => mentionsFrom name code (i + 1 + lineTail rest)
    | .blockComment =>
      match commentTail (rest.drop 1) with
      | none => false
      | some n => mentionsFrom name code (i + 2 + n)
    | .template =>
      match templateTail (i + 1) rest with
      | none => mentionsFrom name code (i + 1)
      | some parts =>
        (parts.holes.any fun hole => mentionsFrom name (hole.of code) 0) ||
          mentionsFrom name code parts.stop
    | .group _ | .plain =>
      let run := rest.takeWhile Byte.isIdentChar
      if b.isIdentStart then
        (!afterDot (code.take i) && (b :: run) == name) ||
          mentionsFrom name code (i + 1 + run.length)
      else if b.isIdentChar then mentionsFrom name code (i + 1 + run.length)
      else mentionsFrom name code (i + 1) := by
  rw [mentionsFrom]
  split
  case h_1 hnil => exact absurd (h.symm.trans hnil) (by simp)
  case h_2 b' rest' hcons =>
    obtain ⟨rfl, rfl⟩ := List.cons.inj (hcons.symm.trans h)
    cases lead b' rest' with
    | template =>
      dsimp only
      split
      case h_1 hnone => rw [hnone]
      case h_2 parts hsome =>
        rw [hsome]
        simp only [List.any_subtype, List.unattach_attach]
    | _ => rfl

end Scan

namespace Checked

open Ascii

variable {ε : Type} {src : Text} {i pos stop : Nat}

theorem runStart_eq (p : Byte → Bool) {floor : Nat} (h : stop ≤ src.length) (hle : floor ≤ stop) :
    (runStart p src floor stop : Checked ε Nat) =
      pure (stop - ((src.slice floor stop).reverse.takeWhile p).length) := by
  induction stop with
  | zero => rw [runStart, Nat.zero_sub]
  | succ stop ih =>
    rw [runStart]
    rcases Nat.lt_or_ge floor (stop + 1) with hlt | hge
    · have hb : src[stop]? = some src[stop] := List.getElem?_eq_getElem h
      have hslice : src.slice floor (stop + 1) = src.slice floor stop ++ [src[stop]] := by
        rw [← Text.slice_append_slice src (Nat.le_of_lt_succ hlt) (Nat.le_succ stop)]
        congr 1
        rw [Text.slice, Scan.drop_eq_cons_of_getElem? hb, Nat.succ_eq_add_one,
          Nat.add_sub_cancel_left]
        rfl
      rw [if_pos hlt, byteAt_eq hb, pure_bind, hslice, List.reverse_append, List.reverse_singleton,
        List.singleton_append]
      split
      case isTrue hp =>
        rw [ih (Nat.le_of_succ_le h) (Nat.le_of_lt_succ hlt), List.takeWhile_cons_of_pos hp,
          List.length_cons, Nat.add_sub_add_right]
      case isFalse hp =>
        rw [List.takeWhile_cons_of_neg hp]
        rfl
    · obtain rfl : floor = stop + 1 := Nat.le_antisymm hle hge
      rw [if_neg (Nat.lt_irrefl _), Text.slice_self]
      rfl

/-- A text ends with a word that can be cut off. -/
theorem endsWithKeyword_eq (code : Text) :
    (endsWithKeyword code : Checked ε Bool) = pure (Scan.endsWithKeyword code) := by
  obtain ⟨-, hslice⟩ :=
    Text.slice_lastRun Byte.isIdentChar (Nat.zero_le _) (Nat.le_refl code.length)
  have hstart := Text.isBoundary_lastRun (fun _ => Byte.isAscii_of_isIdentChar)
    (Nat.zero_le _) (Text.isBoundary_length code)
  rw [endsWithKeyword, runStart_eq _ (Nat.le_refl _) (Nat.zero_le _), pure_bind,
    cut_eq (Nat.sub_le ..) hstart (Text.isBoundary_length code), pure_bind, hslice,
    Text.slice_zero_length]
  rfl

theorem markupMayStart_eq (hpos : src.isBoundary pos = true) :
    (markupMayStart src pos : Checked ε Bool) = pure (Scan.markupMayStart src pos) := by
  rw [markupMayStart, cut_eq (Nat.zero_le _) (Text.isBoundary_zero src) hpos, pure_bind,
    Scan.markupMayStart, Text.slice, List.drop_zero, Nat.sub_zero]
  dsimp only
  cases (Text.trimEnd (src.take pos)).getLast? with
  | none => rfl
  | some last =>
    dsimp only
    split
    case isTrue h => rw [h, Bool.true_or]
    case isFalse h =>
      rw [Bool.not_eq_true] at h
      rw [h, Bool.false_or, endsWithKeyword_eq]
      split
      case isTrue h => rw [h, Bool.true_and]
      case isFalse h =>
        rw [Bool.not_eq_true] at h
        rw [h, Bool.false_and]

theorem atLineStart_eq (hpos : src.isBoundary pos = true) :
    (atLineStart src pos : Checked ε Bool) = pure (Scan.atLineStart src pos) := by
  rw [atLineStart, cut_eq (Nat.zero_le _) (Text.isBoundary_zero src) hpos, pure_bind,
    Scan.atLineStart, Text.slice, List.drop_zero, Nat.sub_zero]

/-- The search for a name makes no access that is not allowed. -/
theorem mentionsFrom_eq (name : Text) {code : Text} (hcode : code.Breaks) (i : Nat) :
    (mentionsFrom name code i : Checked ε Bool) = pure (Scan.mentionsFrom name code i) := by
  induction hlen : code.length using Nat.strongRecOn generalizing code i with
  | ind m ihcode =>
  induction hn : code.length - i using Nat.strongRecOn generalizing i with
  | ind n ih =>
    rw [mentionsFrom.eq_def]
    obtain ⟨hge, hdrop⟩ | ⟨b, hlt, hb, hdrop⟩ := byte_cases code i
    · rw [if_neg (Nat.not_lt.mpr hge), Scan.mentionsFrom_nil hdrop]
    have hrest (j : Nat) (hj : i < j) :
        (mentionsFrom name code j : Checked ε Bool) = pure (Scan.mentionsFrom name code j) :=
      ih _ (by omega) j rfl
    rw [if_pos hlt, byteAt_eq hb, pure_bind, Scan.mentionsFrom_cons hdrop]
    cases hlead : Scan.lead b (code.drop (i + 1)) with
    | string quote =>
      dsimp only
      rw [stringTail_eq, pure_bind]
      exact hrest _ (by omega)
    | lineComment =>
      dsimp only
      rw [lineTail_eq, pure_bind]
      exact hrest _ (by omega)
    | blockComment =>
      dsimp only
      rw [commentTail_eq, pure_bind, List.drop_drop]
      cases Scan.commentTail (code.drop (i + 1 + 1)) with
      | none => rfl
      | some k => exact hrest _ (by omega)
    | template =>
      have htick : code[i]? = some tick := by rw [hb, Scan.eq_tick_of_lead hlead]
      dsimp only
      rw [templateParts_eq hcode htick, pure_bind, Scan.templateParts]
      cases hparts : Scan.templateTail (i + 1) (code.drop (i + 1)) with
      | none => exact hrest _ (by omega)
      | some parts =>
        obtain ⟨hstop, hend, hwithin⟩ := Scan.templateTail_bounds hparts
        obtain ⟨-, -, hbraces⟩ := Scan.seam_templateTail hparts
        have hholes : ∀ hole ∈ parts.holes,
            (do
              let inner ← cut code hole.lo hole.hi
              let ⟨_⟩ ← ahead inner.length code.length
              mentionsFrom name inner 0 : Checked ε Bool) =
              pure (Scan.mentionsFrom name (hole.of code) 0) := by
          intro hole hhole
          obtain ⟨⟨j, hj, hbrace⟩, hrim⟩ := hbraces hole hhole
          obtain ⟨-, hle, hhi⟩ := hwithin hole hhole
          have hlo : code.isBoundary hole.lo = true := hj ▸ hcode.isBoundary_succ hbrace rfl
          have hshort := Scan.length_hole_lt hdrop hparts hhole
          rw [cut_eq hle hlo hrim.isBoundary, pure_bind,
            ahead_eq (show (code.slice hole.lo hole.hi).length < code.length from hshort),
            pure_bind]
          exact ihcode _ (hlen ▸ hshort) (hcode.of_isInfix (Text.slice_isInfix ..)) 0 rfl
        dsimp only
        rw [anyM_eq hholes, pure_bind]
        cases parts.holes.any fun hole => Scan.mentionsFrom name (hole.of code) 0 with
        | true => rfl
        | false =>
          rw [if_neg Bool.false_ne_true, ahead_eq (Nat.lt_of_succ_lt hstop), pure_bind]
          exact hrest _ (Nat.lt_of_succ_lt hstop)
    | group _ | plain =>
      dsimp only
      split
      case isTrue hstart =>
        have hascii := Byte.isAscii_of_isIdentChar (Byte.isIdentChar_of_isIdentStart hstart)
        have hi := Text.isBoundary_of_isAscii hb hascii
        have hstarts : b :: (code.drop (i + 1)).takeWhile Byte.isIdentChar <+: code.drop i := by
          rw [hdrop]
          exact (List.prefix_cons_inj b).mpr (List.takeWhile_prefix _)
        have hall : ∀ c ∈ b :: (code.drop (i + 1)).takeWhile Byte.isIdentChar, c.isAscii = true :=
          List.forall_mem_cons.mpr ⟨hascii, fun c hc =>
            Byte.isAscii_of_isIdentChar (List.all_eq_true.mp List.all_takeWhile c hc)⟩
        have hword : code.slice i
            (i + (b :: (code.drop (i + 1)).takeWhile Byte.isIdentChar).length) =
              b :: (code.drop (i + 1)).takeWhile Byte.isIdentChar :=
          Text.slice_of_isPrefix hstarts
        have hi' := hcode.isBoundary_add hi hstarts hall
        rw [nameLength_isIdentChar, pure_bind, hdrop, Scan.identLength, if_pos hstart,
          cut_eq (Nat.zero_le i) (Text.isBoundary_zero code) hi, pure_bind]
        rw [List.length_cons] at hword hi'
        rw [Nat.add_comm 1, cut_eq (Nat.le_add_right ..) hi hi', pure_bind, hword, Text.slice,
          List.drop_zero, Nat.sub_zero]
        split
        case isTrue hfound => rw [hfound, Bool.true_or]
        case isFalse hother =>
          rw [Bool.not_eq_true] at hother
          rw [hother, Bool.false_or, ahead_eq (by omega), pure_bind,
            show i + ((List.takeWhile Byte.isIdentChar (code.drop (i + 1))).length + 1) =
              i + 1 + (List.takeWhile Byte.isIdentChar (code.drop (i + 1))).length by omega]
          exact hrest _ (by omega)
      case isFalse =>
        split
        · rw [run_length_eq, pure_bind]
          exact hrest _ (by omega)
        · exact hrest _ (by omega)

/-- The position of an offset between characters is found without access that is not allowed. -/
theorem positionAt_eq (hsrc : src.Breaks) (hpos : src.isBoundary pos = true) :
    (positionAt src pos : Checked ε Position) = pure (src.positionAt pos) := by
  have hle := Text.le_length_of_isBoundary hpos
  have hbefore : src.slice 0 pos = src.take pos := by
    rw [Text.slice, List.drop_zero, Nat.sub_zero]
  have hbreaks : Text.Breaks (src.take pos) := hsrc.of_isInfix (List.take_prefix ..).isInfix
  rw [positionAt, Nat.min_eq_left hle, cut_eq (Nat.zero_le _) (Text.isBoundary_zero src) hpos,
    pure_bind, hbefore, Text.positionAt, Text.foldl_advance]
  dsimp only
  generalize src.take pos = before at hbreaks
  obtain ⟨hshort, hlast⟩ := Text.slice_lastRun (· != newline) (Nat.zero_le _)
    (Nat.le_refl before.length)
  rw [Text.slice_zero_length] at hshort hlast
  -- The last line begins where the text does or behind a line feed.
  have hstart : Text.isBoundary before
      (before.length - (before.reverse.takeWhile (· != newline)).length) = true := by
    rcases Scan.length_takeWhile (· != newline) before.reverse with hall | ⟨b, hb, hnewline⟩
    · rw [hall, List.length_reverse, Nat.sub_self]
      exact Text.isBoundary_zero before
    · have hlt := (List.getElem?_eq_some_iff.mp hb).1
      rw [List.length_reverse] at hlt
      obtain rfl : b = newline := by simpa using hnewline
      rw [List.getElem?_reverse hlt] at hb
      have hbound := hbreaks.isBoundary_succ hb rfl
      rwa [show before.length - 1 - (before.reverse.takeWhile (· != newline)).length + 1 =
        before.length - (before.reverse.takeWhile (· != newline)).length by omega] at hbound
  rw [cut_eq (Nat.sub_le ..) hstart (Text.isBoundary_length before), pure_bind, hlast]

end Checked

end JsxStyle
