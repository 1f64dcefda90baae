import JsxStyle.Proofs.Access
import JsxStyle.Proofs.Faults
import JsxStyle.Scan.Split

/-!
# Checked scanners

The scanners for names, literals, comments, groups, templates and segments, with a check of
every access.  They look at a byte where they have compared its offset with the end of the
text or of a range, and cut out texts only where they have stopped.  In a text they
stop at ASCII bytes, so the ends of what is cut out lie between characters, though bytes in
the middle of a character are stepped over one by one.

* `closeTail_eq`: the scanner for groups cuts out the chunks of the templates it passes;
* `templateTail_eq`: the chunk that is cut out is the one collected byte by byte;
* `segmentsFrom_eq`: so it goes for the segments between commas.
-/

namespace JsxStyle

namespace Checked

open Ascii

variable {ε : Type}

/-- The offset at which the white space from `pos` ends, at most `stop`, and that it is no
step back. -/
def spaceEnd (src : Text) (pos stop : Nat) : Checked ε {here : Nat // pos ≤ here} := do
  let n ← run Byte.isSpace src pos stop
  return ⟨pos + n, Nat.le_add_right pos n⟩

/-- The offset at which the white space from `pos` ends, at most `stop`. -/
def skipSpace (src : Text) (pos stop : Nat) : Checked ε Nat :=
  return (← spaceEnd src pos stop).1

/-- Bytes of the name at `pos`, which goes on with bytes of the class `p`. -/
def nameLength (p : Byte → Bool) (src : Text) (pos : Nat) : Checked ε Nat := do
  match ← peek src pos src.length with
  | none => return 0
  | some b => if b.isIdentStart then return 1 + (← run p src (pos + 1) src.length) else return 0

/-- Bytes of a string literal from `i` on, behind its opening quote. -/
def stringTail (quote : Byte) (src : Text) (i : Nat) : Checked ε (Option Nat) :=
  if i < src.length then do
    let b ← byteAt src i
    if b = backslash then return (← stringTail quote src (i + 2)).map (· + 2)
    else if b = newline then return none
    else if b = quote then return some 1
    else return (← stringTail quote src (i + 1)).map (· + 1)
  else return none
termination_by src.length - i

/-- Bytes of a block comment from `i` on, behind what opens it. -/
def commentTail (src : Text) (i : Nat) : Checked ε (Option Nat) :=
  if i + 1 < src.length then do
    let b ← byteAt src i
    let c ← byteAt src (i + 1)
    if b = star ∧ c = slash then return some 2
    else return (← commentTail src (i + 1)).map (· + 1)
  else return none
termination_by src.length - i

/-- Bytes of a line comment from `i` on. -/
def lineTail (src : Text) (i : Nat) : Checked ε Nat :=
  run (· != newline) src i src.length

/-- A construct that the scanner is inside of, with the offset at which the present chunk of
a template begins. -/
inductive Frame where
  | group (close : Byte)
  | template (chunk : Nat)

namespace Frame

/-- The frame without the offset. -/
def bare : Frame → Scan.Frame
  | group close => .group close
  | template _ => .template

/-- The frame when a construct inside of it has ended at `i`, where the next chunk begins. -/
def resume (i : Nat) : Frame → Frame
  | group close => group close
  | template _ => template i

end Frame

/-- Bytes from `i` on up to the one that closes the outermost frame.  The chunks of templates
are cut out on the way. -/
def closeTail (src : Text) (top : Frame) (below : List Frame) (i : Nat) : Checked ε (Option Nat) :=
  if i < src.length then do
    let b ← byteAt src i
    match top with
    | .template chunk =>
      if b = backslash then return (← closeTail src top below (i + 2)).map (· + 2)
      else if b = tick then do
        let _ ← cut src chunk i
        match below with
        | [] => return some 1
        | next :: outer => return (← closeTail src (next.resume (i + 1)) outer (i + 1)).map (· + 1)
      else if b = dollar ∧ src[i + 1]? = some openBrace then do
        let _ ← cut src chunk i
        let _ ← byteAt src (i + 1)
        return (← closeTail src (.group closeBrace) (top :: below) (i + 2)).map (· + 2)
      else return (← closeTail src top below (i + 1)).map (· + 1)
    | .group close =>
      match Scan.lead b (src.drop (i + 1)) with
      | .string quote =>
        match ← stringTail quote src (i + 1) with
        | none => return none
        | some n => return (← closeTail src top below (i + 1 + n)).map (· + (n + 1))
      | .template => return (← closeTail src (.template (i + 1)) (top :: below) (i + 1)).map (· + 1)
      | .lineComment =>
        let n ← lineTail src (i + 1)
        return (← closeTail src top below (i + 1 + n)).map (· + (n + 1))
      | .blockComment =>
        match ← commentTail src (i + 2) with
        | none => return none
        | some n => return (← closeTail src top below (i + 2 + n)).map (· + (n + 2))
      | .group inner => return (← closeTail src (.group inner) (top :: below) (i + 1)).map (· + 1)
      | .plain =>
        if b.isCloser then
          if b = close then
            match below with
            | [] => return some 1
            | next :: outer =>
              return (← closeTail src (next.resume (i + 1)) outer (i + 1)).map (· + 1)
          else return none
        else return (← closeTail src top below (i + 1)).map (· + 1)
  else return none
termination_by src.length - i

/-- Bytes behind the bracket at `pos` up to the one that closes it. -/
def groupTail (src : Text) (pos : Nat) : Checked ε (Option Nat) := do
  let b ← byteAt src pos
  match b.closer? with
  | none => return none
  | some close => closeTail src (.group close) [] (pos + 1)

/-- Takes a template literal apart from `i` on, where the present chunk began at `chunk`. -/
def templateTail (src : Text) (chunk i : Nat) : Checked ε (Option Scan.TemplateParts) :=
  if i < src.length then do
    let b ← byteAt src i
    if b = backslash then templateTail src chunk (i + 2)
    else if b = tick then do
      let text ← cut src chunk i
      return some ⟨[text], [], i + 1⟩
    else if b = dollar ∧ src[i + 1]? = some openBrace then do
      let text ← cut src chunk i
      match ← groupTail src (i + 1) with
      | none => return none
      | some n =>
        return (← templateTail src (i + 2 + n) (i + 2 + n)).map fun p =>
          { p with chunks := text :: p.chunks, holes := ⟨i + 2, i + 1 + n⟩ :: p.holes }
    else templateTail src chunk (i + 1)
  else return none
termination_by src.length - i

/-- Takes apart the template literal whose backtick is at `pos`. -/
def templateParts (src : Text) (pos : Nat) : Checked ε (Option Scan.TemplateParts) :=
  templateTail src (pos + 1) (pos + 1)

/-- The segments of the range up to `hi`, the first of which starts at `start`. -/
def segmentsFrom (src : Text) (hi start i : Nat) : Checked ε (Option (List Span)) :=
  if i < hi then do
    let b ← byteAt src i
    match Scan.lead b (src.drop (i + 1)) with
    | .string quote =>
      match ← stringTail quote src (i + 1) with
      | none => return none
      | some n => segmentsFrom src hi start (i + 1 + n)
    | .template =>
      match ← closeTail src (.template (i + 1)) [] (i + 1) with
      | none => return none
      | some n => segmentsFrom src hi start (i + 1 + n)
    | .group _ =>
      match ← groupTail src i with
      | none => return none
      | some n => segmentsFrom src hi start (i + 1 + n)
    | .blockComment =>
      match ← commentTail src (i + 2) with
      | none => return none
      | some n => segmentsFrom src hi start (i + 2 + n)
    | .lineComment => segmentsFrom src hi start (i + 1)
    | .plain =>
      if b = comma then
        return (← segmentsFrom src hi (i + 1) (i + 1)).map (⟨start, i⟩ :: ·)
      else segmentsFrom src hi start (i + 1)
  else do
    let last ← cut src start hi
    if last.isBlank then return some [] else return some [⟨start, hi⟩]
termination_by hi - i

section

variable {src : Text} {i pos stop : Nat}

/-- A byte is left or the text has ended. -/
theorem byte_cases (src : Text) (i : Nat) :
    src.length ≤ i ∧ src.drop i = [] ∨
      ∃ b, i < src.length ∧ src[i]? = some b ∧ src.drop i = b :: src.drop (i + 1) := by
  rcases Nat.lt_or_ge i src.length with hlt | hge
  · have hb : src[i]? = some src[i] := List.getElem?_eq_getElem hlt
    exact .inr ⟨_, hlt, hb, Scan.drop_eq_cons_of_getElem? hb⟩
  · exact .inl ⟨hge, List.drop_of_length_le hge⟩

/-- White space is skipped without a fault, to a place not before the first. -/
theorem spaceEnd_eq (h : stop ≤ src.length) :
    (spaceEnd src pos stop : Checked ε _) =
      pure ⟨Scan.skipSpace src pos stop, Scan.le_skipSpace src pos stop⟩ := by
  rw [spaceEnd, run_eq _ h]
  rfl

/-- White space is skipped without a fault. -/
theorem skipSpace_eq (h : stop ≤ src.length) :
    (skipSpace src pos stop : Checked ε Nat) = pure (Scan.skipSpace src pos stop) := by
  rw [skipSpace, spaceEnd_eq h]
  rfl

/-- The length of a name is found without a fault, whatever bytes names are made of. -/
theorem nameLength_eq (p : Byte → Bool) (src : Text) (pos : Nat) :
    (nameLength p src pos : Checked ε Nat) = pure (match src.drop pos with
      | [] => 0
      | b :: rest => if b.isIdentStart then 1 + (rest.takeWhile p).length else 0) := by
  rw [nameLength]
  rcases byte_cases src pos with ⟨hge, hdrop⟩ | ⟨b, hlt, hb, hdrop⟩
  · rw [peek_eq_none hge, hdrop]
    rfl
  · rw [peek_eq_some hb hlt, hdrop, pure_bind]
    dsimp only
    rw [run_length_eq]
    split <;> rfl

/-- The length of a tag or attribute name is found without a fault. -/
theorem nameLength_isNameChar (src : Text) (pos : Nat) :
    (nameLength Byte.isNameChar src pos : Checked ε Nat) =
      pure (Scan.nameLength (src.drop pos)) := by
  rw [nameLength_eq]
  cases src.drop pos <;> rfl

/-- The length of an identifier is found without a fault. -/
theorem nameLength_isIdentChar (src : Text) (pos : Nat) :
    (nameLength Byte.isIdentChar src pos : Checked ε Nat) =
      pure (Scan.identLength (src.drop pos)) := by
  rw [nameLength_eq]
  cases src.drop pos <;> rfl

/-- The end of a string is found without a fault. -/
theorem stringTail_eq (quote : Byte) (src : Text) (i : Nat) :
    (stringTail quote src i : Checked ε (Option Nat)) =
      pure (Scan.stringTail quote (src.drop i)) := by
  rw [stringTail]
  obtain ⟨hge, hdrop⟩ | ⟨b, hlt, hb, hdrop⟩ := byte_cases src i
  · rw [if_neg (Nat.not_lt.mpr hge), hdrop]
    rfl
  · rw [if_pos hlt, byteAt_eq hb, pure_bind, hdrop, Scan.stringTail.eq_def,
      stringTail_eq quote src (i + 2), stringTail_eq quote src (i + 1), pure_bind, pure_bind]
    dsimp only
    split
    · obtain ⟨hge, hdrop'⟩ | ⟨c, -, -, hdrop'⟩ := byte_cases src (i + 1)
      · rw [hdrop', List.drop_of_length_le (Nat.le_succ_of_le hge)]
        rfl
      · rw [hdrop']
    · split
      · rfl
      · split <;> rfl
termination_by src.length - i

/-- The end of a block comment is found without a fault. -/
theorem commentTail_eq (src : Text) (i : Nat) :
    (commentTail src i : Checked ε (Option Nat)) = pure (Scan.commentTail (src.drop i)) := by
  rw [commentTail]
  split
  case isTrue hlt =>
    have hin := Nat.lt_of_succ_lt hlt
    have hb : src[i]? = some src[i] := List.getElem?_eq_getElem hin
    have hc : src[i + 1]? = some src[i + 1] := List.getElem?_eq_getElem hlt
    rw [byteAt_eq hb, pure_bind, byteAt_eq hc, pure_bind, Scan.drop_eq_cons_of_getElem? hb,
      Scan.commentTail, commentTail_eq src (i + 1), pure_bind, List.head?_drop, hc]
    simp only [Option.some.injEq]
    split <;> rfl
  case isFalse hge =>
    -- At most one byte is left, and no comment ends with a single byte.
    obtain ⟨-, hdrop⟩ | ⟨b, -, -, hdrop⟩ := byte_cases src i
    · rw [hdrop]
      rfl
    · rw [hdrop, List.drop_of_length_le (Nat.le_of_not_lt hge)]
      simp [Scan.commentTail]
termination_by src.length - i

/-- The end of a line is found without a fault. -/
theorem lineTail_eq (src : Text) (i : Nat) :
    (lineTail src i : Checked ε Nat) = pure (Scan.lineTail (src.drop i)) :=
  run_length_eq ..

/-- The chunk of a template begins between characters and not behind the offset. -/
def Frame.Open (src : Text) (i : Nat) : Frame → Prop
  | group _ => True
  | template chunk => chunk ≤ i ∧ src.isBoundary chunk = true

/-- A frame without its place is the same wherever it is resumed. -/
@[simp] theorem Frame.bare_resume (i : Nat) (f : Frame) : (f.resume i).bare = f.bare := by
  cases f <;> rfl

/-- A frame that is resumed between characters is open there. -/
theorem Frame.Open.resume (h : src.isBoundary i = true) (f : Frame) : (f.resume i).Open src i := by
  cases f with
  | group close => trivial
  | template chunk => exact ⟨Nat.le_refl i, h⟩

theorem Frame.Open.mono {f : Frame} {j : Nat} (h : f.Open src i) (hij : i ≤ j) : f.Open src j := by
  cases f with
  | group close => trivial
  | template chunk => exact ⟨Nat.le_trans h.1 hij, h.2⟩

/-- A scan for the end of a construct makes no access that is not allowed. -/
theorem closeTail_eq (hsrc : src.Breaks) (top : Frame) (below : List Frame)
    (htop : top.Open src i) :
    (closeTail src top below i : Checked ε (Option Nat)) =
      pure (Scan.closeTail top.bare (below.map Frame.bare) (src.drop i)) := by
  induction hn : src.length - i using Nat.strongRecOn generalizing top below i with
  | ind n ih =>
    rw [closeTail.eq_def]
    obtain ⟨hge, hdrop⟩ | ⟨b, hlt, hb, hdrop⟩ := byte_cases src i
    · rw [if_neg (Nat.not_lt.mpr hge), hdrop, Scan.closeTail.eq_def]
    have hrest (top : Frame) (below : List Frame) (k : Nat) (htop : top.Open src (i + 1 + k)) :
        (closeTail src top below (i + 1 + k) : Checked ε (Option Nat)) =
          pure (Scan.closeTail top.bare (below.map Frame.bare) ((src.drop (i + 1)).drop k)) := by
      rw [ih _ (by omega) top below htop rfl, List.drop_drop]
    have hhere {f : Frame} (h : f.Open src i) (k : Nat) : f.Open src (i + 1 + k) :=
      h.mono (by omega)
    have hleave (hascii : b.isAscii = true) (next : Frame) (outer : List Frame) :
        (closeTail src (next.resume (i + 1)) outer (i + 1) : Checked ε (Option Nat)) =
          pure (Scan.closeTail next.bare (outer.map Frame.bare) (src.drop (i + 1))) := by
      have h := hrest _ outer 0 (Frame.Open.resume (hsrc.isBoundary_succ hb hascii) next)
      rwa [Frame.bare_resume] at h
    rw [if_pos hlt, byteAt_eq hb, pure_bind, hdrop, Scan.closeTail.eq_def]
    cases top with
    | template chunk =>
      dsimp only [Frame.bare]
      split
      · rw [hrest _ below 1 (hhere htop 1)]
        rfl
      · split
        case isTrue htick =>
          have hascii : b.isAscii = true := by rw [htick]; rfl
          rw [cut_eq htop.1 htop.2 (Text.isBoundary_of_isAscii hb hascii), pure_bind]
          cases below with
          | nil => rfl
          | cons next outer =>
            dsimp only
            rw [hleave hascii next outer]
            rfl
        case isFalse =>
          rw [List.head?_drop]
          split
          case isTrue hopen =>
            have hascii : b.isAscii = true := by rw [hopen.1]; rfl
            rw [cut_eq htop.1 htop.2 (Text.isBoundary_of_isAscii hb hascii), pure_bind,
              byteAt_eq hopen.2, pure_bind, hrest (.group closeBrace) _ 1 trivial]
            rfl
          case isFalse =>
            rw [hrest _ below 0 (hhere htop 0)]
            rfl
    | group close =>
      dsimp only [Frame.bare]
      cases hlead : Scan.lead b (src.drop (i + 1)) with
      | string quote =>
        dsimp only
        rw [stringTail_eq, pure_bind]
        cases Scan.stringTail quote (src.drop (i + 1)) with
        | none => rfl
        | some k =>
          dsimp only
          rw [hrest (.group close) below k trivial]
          rfl
      | template =>
        have hascii : b.isAscii = true := by rw [Scan.eq_tick_of_lead hlead]; rfl
        dsimp only
        rw [hrest (.template (i + 1)) _ 0 ⟨Nat.le_refl _, hsrc.isBoundary_succ hb hascii⟩]
        rfl
      | lineComment =>
        dsimp only
        rw [lineTail_eq, pure_bind, hrest (.group close) below _ trivial]
        rfl
      | blockComment =>
        dsimp only
        rw [commentTail_eq, pure_bind, List.drop_drop]
        cases Scan.commentTail (src.drop (i + 1 + 1)) with
        | none => rfl
        | some k =>
          dsimp only
          rw [show i + 2 + k = i + 1 + (k + 1) by omega,
            hrest (.group close) below (k + 1) trivial]
          rfl
      | group inner =>
        dsimp only
        rw [hrest (.group inner) _ 0 trivial]
        rfl
      | plain =>
        dsimp only
        split
        case isTrue hcloser =>
          split
          · cases below with
            | nil => rfl
            | cons next outer =>
              dsimp only
              rw [hleave (Byte.isAscii_of_isCloser hcloser) next outer]
              rfl
          · rfl
        case isFalse =>
          rw [hrest (.group close) below 0 trivial]
          rfl

/-- A scan for the bracket that closes one makes no access that is not allowed. -/
theorem groupTail_eq (hsrc : src.Breaks) {b close : Byte} (hb : src[pos]? = some b)
    (hclose : b.closer? = some close) :
    (groupTail src pos : Checked ε (Option Nat)) =
      pure (Scan.closeTail (.group close) [] (src.drop (pos + 1))) := by
  rw [groupTail, byteAt_eq hb, pure_bind, hclose]
  exact closeTail_eq hsrc (.group close) [] trivial

/-- A scan for the end of a template makes no access that is not allowed. -/
theorem chunkTail_eq (hsrc : src.Breaks) (htick : src[pos]? = some tick) :
    (closeTail src (.template (pos + 1)) [] (pos + 1) : Checked ε (Option Nat)) =
      pure (Scan.closeTail .template [] (src.drop (pos + 1))) :=
  closeTail_eq hsrc (.template (pos + 1)) []
    ⟨Nat.le_refl _, hsrc.isBoundary_succ htick rfl⟩

end

end Checked

namespace Scan

/-- Putting no text before the parts of a template changes nothing. -/
theorem TemplateParts.extend_nil {p : TemplateParts} (h : p.chunks ≠ []) : p.extend [] = p := by
  obtain ⟨chunks, holes, stop⟩ := p
  cases chunks with
  | nil => exact absurd rfl h
  | cons chunk chunks => rfl

/-- Two texts put before the parts of a template are put there as one. -/
theorem TemplateParts.extend_extend (p : TemplateParts) (u v : Text) :
    (p.extend v).extend u = p.extend (u ++ v) := by
  obtain ⟨chunks, holes, stop⟩ := p
  cases chunks with
  | nil => rfl
  | cons chunk chunks => simp [TemplateParts.extend]

end Scan

namespace Checked

open Ascii

variable {ε : Type} {src : Text} {i pos stop : Nat}

/-- Taking a template apart makes no access that is not allowed; the chunk that is cut out in
the end is the one put together byte by byte. -/
theorem templateTail_eq (hsrc : src.Breaks) {chunk : Nat} (hle : chunk ≤ i)
    (hchunk : src.isBoundary chunk = true) :
    (templateTail src chunk i : Checked ε (Option Scan.TemplateParts)) =
      pure ((Scan.templateTail i (src.drop i)).map (·.extend (src.slice chunk i))) := by
  induction hn : src.length - i using Nat.strongRecOn generalizing chunk i with
  | ind n ih =>
    rw [templateTail.eq_def]
    obtain ⟨hge, hdrop⟩ | ⟨b, hlt, hb, hdrop⟩ := byte_cases src i
    · rw [if_neg (Nat.not_lt.mpr hge), hdrop, Scan.templateTail]
      rfl
    have hslice (k : Nat) :
        src.slice chunk (i + 1 + k) = src.slice chunk i ++ b :: (src.drop (i + 1)).take k := by
      rw [← Text.slice_append_slice src hle (show i ≤ i + 1 + k by omega)]
      congr 1
      rw [Text.slice, hdrop, show i + 1 + k - i = k + 1 by omega, List.take_succ_cons]
    have hrest (k : Nat) :
        (templateTail src chunk (i + 1 + k) : Checked ε (Option Scan.TemplateParts)) =
          pure (((Scan.templateTail (i + 1 + k) ((src.drop (i + 1)).drop k)).map
            (·.extend (b :: (src.drop (i + 1)).take k))).map (·.extend (src.slice chunk i))) := by
      rw [ih _ (by omega) (by omega) hchunk rfl, hslice, List.drop_drop, Option.map_map]
      simp only [Function.comp_def, Scan.TemplateParts.extend_extend]
    rw [if_pos hlt, byteAt_eq hb, pure_bind, hdrop, Scan.templateTail]
    split
    · exact hrest 1
    · split
      case isTrue htick =>
        have hascii : b.isAscii = true := by rw [htick]; rfl
        rw [cut_eq hle hchunk (Text.isBoundary_of_isAscii hb hascii), pure_bind, Option.map_some]
        simp [Scan.TemplateParts.extend]
      case isFalse =>
        rw [List.head?_drop]
        split
        case isTrue hopen =>
          have hascii : b.isAscii = true := by rw [hopen.1]; rfl
          rw [cut_eq hle hchunk (Text.isBoundary_of_isAscii hb hascii), pure_bind,
            groupTail_eq hsrc hopen.2 rfl, pure_bind, List.drop_drop]
          cases hclose : Scan.closeTail (.group closeBrace) [] (src.drop (i + 1 + 1)) with
          | none => rfl
          | some k =>
            dsimp only
            obtain ⟨m, rfl, hm⟩ := Scan.getElem?_closeTail rfl hclose
            have hend : src[i + 1 + 1 + m]? = some closeBrace := by
              rw [← List.getElem?_drop]
              exact hm
            have hbound := hsrc.isBoundary_succ hend rfl
            rw [show i + 2 + (m + 1) = i + 1 + 1 + m + 1 by omega,
              ih _ (by omega) (Nat.le_refl _) hbound rfl, pure_bind, Text.slice_self,
              List.drop_drop,
              show i + 1 + (m + 1 + 1) = i + 1 + 1 + m + 1 by omega]
            cases hparts : Scan.templateTail (i + 1 + 1 + m + 1) (src.drop (i + 1 + 1 + m + 1)) with
            | none => rfl
            | some p =>
              rw [Option.map_some,
                Scan.TemplateParts.extend_nil (Scan.templateTrace hparts).chunks_ne_nil]
              simp [Scan.TemplateParts.extend, Scan.TemplateParts.consHole]
        case isFalse => exact hrest 0

/-- Taking a template apart makes no access that is not allowed. -/
theorem templateParts_eq (hsrc : src.Breaks) (htick : src[pos]? = some tick) :
    (templateParts src pos : Checked ε (Option Scan.TemplateParts)) =
      pure (Scan.templateParts src pos) := by
  rw [templateParts, templateTail_eq hsrc (Nat.le_refl _) (hsrc.isBoundary_succ htick rfl),
    Text.slice_self, Scan.templateParts]
  cases hparts : Scan.templateTail (pos + 1) (src.drop (pos + 1)) with
  | none => rfl
  | some p =>
    rw [Option.map_some, Scan.TemplateParts.extend_nil (Scan.templateTrace hparts).chunks_ne_nil]

/-- Cutting a range at its commas makes no access that is not allowed. -/
theorem segmentsFrom_eq (hsrc : src.Breaks) {hi start : Nat} (hle : start ≤ hi)
    (hstart : src.isBoundary start = true) (hhi : src.isBoundary hi = true) :
    (segmentsFrom src hi start i : Checked ε (Option (List Span))) =
      pure (Scan.segmentsFrom src hi start i) := by
  have hlen := Text.le_length_of_isBoundary hhi
  induction hn : hi - i using Nat.strongRecOn generalizing start i with
  | ind n ih =>
    rw [segmentsFrom.eq_def, Scan.segmentsFrom.eq_def]
    by_cases hlt : i < hi
    · obtain ⟨hge, -⟩ | ⟨b, -, hb, hdrop⟩ := byte_cases src i
      · omega
      have hrest (j : Nat) (hj : i < j) :
          (segmentsFrom src hi start j : Checked ε (Option (List Span))) =
            pure (Scan.segmentsFrom src hi start j) :=
        ih _ (by omega) hle hstart rfl
      rw [if_pos hlt, if_pos hlt, byteAt_eq hb, pure_bind, hdrop]
      dsimp only
      cases hlead : Scan.lead b (src.drop (i + 1)) with
      | string quote =>
        dsimp only
        rw [stringTail_eq, pure_bind]
        cases Scan.stringTail quote (src.drop (i + 1)) with
        | none => rfl
        | some k => exact hrest _ (by omega)
      | template =>
        have htick : src[i]? = some tick := by rw [hb, Scan.eq_tick_of_lead hlead]
        dsimp only
        rw [chunkTail_eq hsrc htick, pure_bind]
        cases Scan.closeTail .template [] (src.drop (i + 1)) with
        | none => rfl
        | some k => exact hrest _ (by omega)
      | group close =>
        dsimp only
        rw [groupTail_eq hsrc hb (Scan.closer?_of_lead hlead), pure_bind]
        cases Scan.closeTail (.group close) [] (src.drop (i + 1)) with
        | none => rfl
        | some k => exact hrest _ (by omega)
      | blockComment =>
        dsimp only
        rw [commentTail_eq, pure_bind, List.drop_drop]
        cases Scan.commentTail (src.drop (i + 1 + 1)) with
        | none => rfl
        | some k => exact hrest _ (by omega)
      | lineComment => exact hrest _ (by omega)
      | plain =>
        dsimp only
        split
        case isTrue hcomma =>
          have hbound := hsrc.isBoundary_succ hb (by rw [hcomma]; rfl)
          rw [ih _ (by omega) (by omega) hbound rfl]
          rfl
        case isFalse => exact hrest _ (by omega)
    · rw [if_neg hlt, if_neg hlt, cut_eq hle hstart hhi, pure_bind]
      split <;> rfl

end Checked

end JsxStyle
