import JsxStyle.Proofs.Passing
import JsxStyle.Proofs.Seams

/-!
# Brackets and templates

The search for a closing bracket skips templates, and taking a template apart
looks for the closing brackets of its holes.  `closeTail` does both with one
stack; here the two are written as two loops, each of which is handed the answers
of the other.  The stack is worth nothing more: closing a construct inside another
is closing the inner one and then the outer one.

Each loop asks about later offsets only, so there is one way to answer all
questions, and the scanners of a text answer that way.

* `closeTail_append`: a stack closes from the inside out;
* `partsFrom_scanners`, `groupFrom_scanners`: the loops and the scanner agree;
* `Scanners.AgreeAt.next`: an answer depends on answers about later offsets;
* `next_eq_self_iff`: there is one pair of scanners that answers its own calls.
-/

namespace JsxStyle

namespace Scan

open Ascii

/-- The two scanners that call each other: one finds the bracket that closes the
one at an offset, one takes the template literal at an offset apart.  Both
answer with something further on. -/
@[ext]
structure Scanners where
  matching : (pos : Nat) → Option {close : Nat // pos < close}
  template : (pos : Nat) → Option {parts : TemplateParts // pos < parts.stop}

/-- The loop over a group from offset `i` on, inside brackets that `stack`
closes, the innermost first.  Only templates are left to another scanner. -/
def groupFrom (s : Scanners) (src : Text) (stack : List Byte) (i : Nat) : Option Nat :=
  match _h : src.drop i with
  | [] => none
  | b :: rest =>
    match lead b rest with
    | .string quote =>
      match stringTail quote rest with
      | none => none
      | some n => groupFrom s src stack (i + 1 + n)
    | .template =>
      match s.template i with
      | none => none
      | some parts =>
        have _hadv := parts.2
        groupFrom s src stack parts.1.stop
    | .lineComment => groupFrom s src stack (i + 1 + lineTail rest)
    | .blockComment =>
      match commentTail (rest.drop 1) with
      | none => none
      | some n => groupFrom s src stack (i + 2 + n)
    | .group close => groupFrom s src (close :: stack) (i + 1)
    | .plain =>
      if b.isCloser then
        match stack with
        | [] => none
        | close :: outer =>
          if b == close then
            if outer = [] then some i else groupFrom s src outer (i + 1)
          else none
      else groupFrom s src stack (i + 1)
termination_by src.length - i
decreasing_by
  all_goals
    have := Read.lt_length_of_drop_eq_cons _h
    omega

/-- The loop over a template literal from offset `i` on.  Only the brackets of
holes are left to another scanner. -/
def partsFrom (s : Scanners) (src : Text) (i : Nat) : Option TemplateParts :=
  match _h : src.drop i with
  | [] => none
  | b :: rest =>
    if b = backslash then (partsFrom s src (i + 2)).map (·.extend (b :: rest.take 1))
    else if b = tick then some ⟨[[]], [], i + 1⟩
    else if b = dollar ∧ rest.head? = some openBrace then
      match s.matching (i + 1) with
      | none => none
      | some close =>
        have _hadv := close.2
        (partsFrom s src (close.1 + 1)).map (·.consHole ⟨i + 2, close.1⟩)
    else (partsFrom s src (i + 1)).map (·.extend [b])
termination_by src.length - i
decreasing_by
  all_goals
    have := Read.lt_length_of_drop_eq_cons _h
    omega

variable {s s' : Scanners} {src : Text}

/-- A group does not close behind the text. -/
theorem groupFrom_nil {stack : List Byte} {i : Nat} (h : src.drop i = []) :
    groupFrom s src stack i = none := by
  rw [groupFrom]
  split
  case h_1 => rfl
  case h_2 hcons => exact absurd (h.symm.trans hcons) (by simp)

/-- One step of the loop over a group. -/
theorem groupFrom_cons {stack : List Byte} {i : Nat} {b : Byte} {rest : Text}
    (h : src.drop i = b :: rest) : groupFrom s src stack i =
      match lead b rest with
      | .string quote => (stringTail quote rest).bind fun n => groupFrom s src stack (i + 1 + n)
      | .template => (s.template i).bind fun parts => groupFrom s src stack parts.1.stop
      | .lineComment => groupFrom s src stack (i + 1 + lineTail rest)
      | .blockComment =>
        (commentTail (rest.drop 1)).bind fun n => groupFrom s src stack (i + 2 + n)
      | .group close => groupFrom s src (close :: stack) (i + 1)
      | .plain =>
        if b.isCloser then
          match stack with
          | [] => none
          | close :: outer =>
            if b == close then
              if outer = [] then some i else groupFrom s src outer (i + 1)
            else none
        else groupFrom s src stack (i + 1) := by
  rw [groupFrom]
  split
  case h_1 hnil => exact absurd (h.symm.trans hnil) (by simp)
  case h_2 b' rest' hcons =>
    obtain ⟨rfl, rfl⟩ := List.cons.inj (hcons.symm.trans h)
    cases lead b' rest' with
    | string quote => cases hstring : stringTail quote rest' <;> simp [hstring]
    | template => cases s.template i <;> simp
    | blockComment => cases commentTail (rest'.drop 1) <;> simp
    | _ => rfl

/-- A template does not end behind the text. -/
theorem partsFrom_nil {i : Nat} (h : src.drop i = []) : partsFrom s src i = none := by
  rw [partsFrom]
  split
  case h_1 => rfl
  case h_2 hcons => exact absurd (h.symm.trans hcons) (by simp)

/-- One step of the loop over a template. -/
theorem partsFrom_cons {i : Nat} {b : Byte} {rest : Text} (h : src.drop i = b :: rest) :
    partsFrom s src i =
      if b = backslash then (partsFrom s src (i + 2)).map (·.extend (b :: rest.take 1))
      else if b = tick then some ⟨[[]], [], i + 1⟩
      else if b = dollar ∧ rest.head? = some openBrace then
        (s.matching (i + 1)).bind fun close =>
          (partsFrom s src (close.1 + 1)).map (·.consHole ⟨i + 2, close.1⟩)
      else (partsFrom s src (i + 1)).map (·.extend [b]) := by
  rw [partsFrom]
  split
  case h_1 hnil => exact absurd (h.symm.trans hnil) (by simp)
  case h_2 b' rest' hcons =>
    obtain ⟨rfl, rfl⟩ := List.cons.inj (hcons.symm.trans h)
    cases s.matching (i + 1) <;> simp

/-- A group is not found to close before the offset. -/
theorem le_of_groupFrom {stack : List Byte} {i close : Nat}
    (h : groupFrom s src stack i = some close) : i ≤ close := by
  fun_induction groupFrom s src stack i <;> grind

/-- A template is found to end behind the offset. -/
theorem lt_of_partsFrom {i : Nat} {parts : TemplateParts} (h : partsFrom s src i = some parts) :
    i < parts.stop := by
  fun_induction partsFrom s src i generalizing parts <;>
    grind [TemplateParts.extend_stop, TemplateParts.consHole, Option.map_eq_some_iff]

/-- The two scanners, each of which hands the calls it makes to `s`. -/
def Scanners.next (src : Text) (s : Scanners) : Scanners where
  matching pos :=
    (src[pos]?.bind Byte.closer?).bind fun close =>
      (groupFrom s src [close] (pos + 1)).pmap Subtype.mk fun _ h => le_of_groupFrom h
  template pos :=
    (partsFrom s src (pos + 1)).pmap Subtype.mk fun _ h => Nat.lt_of_succ_lt (lt_of_partsFrom h)

/-- A bracket is matched behind it. -/
theorem lt_of_matching {pos close : Nat} (h : matching src pos = some close) : pos < close := by
  unfold matching at h
  split at h
  · exact absurd h (by simp)
  · obtain ⟨closer, -, h⟩ := Option.bind_eq_some_iff.mp h
    obtain ⟨n, hn, rfl⟩ := Option.map_eq_some_iff.mp h
    have := (closeTail_bounds hn).1
    omega

/-- A template ends behind its backtick. -/
theorem lt_of_templateParts {pos : Nat} {parts : TemplateParts}
    (h : templateParts src pos = some parts) : pos < parts.stop :=
  Nat.lt_of_succ_lt (templateTail_bounds h).1

/-- The scanners of a text. -/
def scanners (src : Text) : Scanners where
  matching pos := (matching src pos).pmap Subtype.mk fun _ h => lt_of_matching h
  template pos := (templateParts src pos).pmap Subtype.mk fun _ h => lt_of_templateParts h

/-- Closing a construct within another is closing the inner one, then the outer one. -/
theorem closeTail_append (top next : Frame) (below outer : List Frame) (t : Text) :
    closeTail top (below ++ next :: outer) t =
      (closeTail top below t).bind fun n => (closeTail next outer (t.drop n)).map (· + n) := by
  -- A step over some bytes is the same step on both sides.
  have hstep {b : Byte} {rest : Text} (k : Nat) {whole inner : Option Nat}
      (ih : whole = inner.bind fun n => (closeTail next outer ((rest.drop k).drop n)).map (· + n)) :
      whole.map (· + (k + 1)) = (inner.map (· + (k + 1))).bind fun n =>
        (closeTail next outer ((b :: rest).drop n)).map (· + n) := by
    subst ih
    cases inner with
    | none => rfl
    | some n =>
      simp only [Option.bind_some, Option.map_some, List.drop_drop, map_add_add]
      rw [show n + (k + 1) = (k + n) + 1 by omega, List.drop_succ_cons]
  induction hlen : t.length using Nat.strongRecOn generalizing top below t with
  | ind len ih =>
    subst hlen
    cases t with
    | nil =>
      rw [closeTail.eq_def, closeTail.eq_def]
      rfl
    | cons b rest =>
      have hnext (k : Nat) (top : Frame) (below : List Frame) :
          (closeTail top (below ++ next :: outer) (rest.drop k)).map (· + (k + 1)) =
            ((closeTail top below (rest.drop k)).map (· + (k + 1))).bind fun n =>
              (closeTail next outer ((b :: rest).drop n)).map (· + n) :=
        hstep k (ih _ (by rw [List.length_drop, List.length_cons]; omega) top below _ rfl)
      have hleave : leave (below ++ next :: outer) rest = (leave below rest).bind fun n =>
          (closeTail next outer ((b :: rest).drop n)).map (· + n) := by
        cases below with
        | nil => rfl
        | cons inner below => exact hnext 0 inner below
      cases top with
      | template =>
        rw [closeTail_template_cons, closeTail_template_cons]
        split
        · exact hnext 1 .template below
        · split
          · exact hleave
          · split
            · exact hnext 1 (.group closeBrace) (.template :: below)
            · exact hnext 0 .template below
      | group close =>
        rw [closeTail_group_cons, closeTail_group_cons]
        cases lead b rest with
        | string quote =>
          dsimp only
          cases stringTail quote rest with
          | none => rfl
          | some n => exact hnext n (.group close) below
        | template => exact hnext 0 .template (.group close :: below)
        | lineComment => exact hnext (lineTail rest) (.group close) below
        | blockComment =>
          dsimp only
          cases commentTail (rest.drop 1) with
          | none => rfl
          | some n => exact hnext (n + 1) (.group close) below
        | group inner => exact hnext 0 (.group inner) (.group close :: below)
        | plain =>
          dsimp only
          split
          · split
            · exact hleave
            · rfl
          · exact hnext 0 (.group close) below

/-- To close several frames is to close the innermost one and then the others. -/
theorem closeTail_cons (top next : Frame) (outer : List Frame) (t : Text) :
    closeTail top (next :: outer) t =
      (closeTail top [] t).bind fun n => (closeTail next outer (t.drop n)).map (· + n) :=
  closeTail_append top next [] outer t

/-- Taking a template literal apart ends where skipping it does. -/
theorem stop_templateTail (pos : Nat) (t : Text) :
    (templateTail pos t).map (·.stop) = (closeTail .template [] t).map (pos + ·) := by
  have hstep {pos k : Nat} {parts : Option TemplateParts} {end? : Option Nat}
      {f : TemplateParts → TemplateParts} (hf : ∀ p, (f p).stop = p.stop)
      (ih : parts.map (·.stop) = end?.map (pos + k + ·)) :
      (parts.map f).map (·.stop) = (end?.map (· + k)).map (pos + ·) := by
    rw [Option.map_map, Option.map_map]
    refine Eq.trans (congrArg (parts.map ·) (funext hf)) (ih.trans ?_)
    refine congrArg (end?.map ·) (funext fun n => ?_)
    show pos + k + n = pos + (n + k)
    omega
  cases t with
  | nil =>
    rw [templateTail, closeTail.eq_def]
    rfl
  | cons b rest =>
    rw [templateTail, closeTail_template_cons]
    by_cases hslash : b = backslash
    · rw [if_pos hslash, if_pos hslash]
      exact hstep (fun p => TemplateParts.extend_stop _ p) (stop_templateTail (pos + 2) _)
    by_cases htick : b = tick
    · rw [if_neg hslash, if_neg hslash, if_pos htick, if_pos htick]
      rfl
    rw [if_neg hslash, if_neg hslash, if_neg htick, if_neg htick]
    by_cases hopen : b = dollar ∧ rest.head? = some openBrace
    · rw [if_pos hopen, if_pos hopen, closeTail_cons]
      cases closeTail (.group closeBrace) [] (rest.drop 1) with
      | none => rfl
      | some n =>
        have ih := stop_templateTail (pos + 2 + n) (rest.drop (n + 1))
        rw [Option.bind_some, map_add_add, List.drop_drop, Nat.add_comm 1 n]
        dsimp only
        rw [Nat.add_assoc pos 2 n, Nat.add_comm 2 n] at ih ⊢
        exact hstep (fun _ => rfl) ih
    · rw [if_neg hopen, if_neg hopen]
      exact hstep (fun p => TemplateParts.extend_stop _ p) (stop_templateTail (pos + 1) rest)
termination_by t.length
decreasing_by all_goals (simp only [List.length_drop, List.length_cons]; omega)

/-- The scanners match brackets as the program does. -/
@[simp] theorem matching_scanners (src : Text) (pos : Nat) :
    ((scanners src).matching pos).map Subtype.val = matching src pos := by
  simp [scanners, Option.map_pmap]

/-- The scanners cut templates as the program does. -/
@[simp] theorem template_scanners (src : Text) (pos : Nat) :
    ((scanners src).template pos).map Subtype.val = templateParts src pos := by
  simp [scanners, Option.map_pmap]

/-- Behind a byte the text goes on with what follows it. -/
theorem drop_add_of_drop_eq_cons {i : Nat} {b : Byte} {rest : Text} (h : src.drop i = b :: rest)
    (k : Nat) : src.drop (i + 1 + k) = rest.drop k := by
  rw [← List.drop_drop, (getElem?_of_drop_eq_cons h).2]

/-- The scanners take a hole of a template to end where its brace is found to close. -/
theorem matching_hole_scanners {i : Nat} {b : Byte} {rest : Text} (h : src.drop i = b :: rest)
    (hopen : rest.head? = some openBrace) :
    ((scanners src).matching (i + 1)).map Subtype.val =
      (closeTail (.group closeBrace) [] (rest.drop 1)).map (i + 1 + ·) := by
  obtain ⟨rest, rfl⟩ := List.head?_eq_some_iff.mp hopen
  rw [matching_scanners, matching_of_closer (getElem?_of_drop_eq_cons h).2 rfl]
  rfl

/-- The loop over a template literal, with the scanners of the text, takes it apart. -/
theorem partsFrom_scanners (src : Text) (i : Nat) :
    partsFrom (scanners src) src i = templateTail i (src.drop i) := by
  cases h : src.drop i with
  | nil => rw [partsFrom_nil h, templateTail]
  | cons b rest =>
    have hlt := Read.lt_length_of_drop_eq_cons h
    rw [partsFrom_cons h, templateTail]
    by_cases hslash : b = backslash
    · rw [if_pos hslash, if_pos hslash, partsFrom_scanners src (i + 2),
        drop_add_of_drop_eq_cons h 1]
    by_cases htick : b = tick
    · rw [if_neg hslash, if_neg hslash, if_pos htick, if_pos htick]
    rw [if_neg hslash, if_neg hslash, if_neg htick, if_neg htick]
    by_cases hopen : b = dollar ∧ rest.head? = some openBrace
    · rw [if_pos hopen, if_pos hopen]
      have hclose := matching_hole_scanners h hopen.2
      cases hmatching : (scanners src).matching (i + 1) with
      | none =>
        rw [hmatching, Option.map_none, eq_comm, Option.map_eq_none_iff] at hclose
        rw [hclose]
        rfl
      | some close =>
        rw [hmatching, Option.map_some, eq_comm, Option.map_eq_some_iff] at hclose
        obtain ⟨n, hn, hclose⟩ := hclose
        have hadv := close.2
        rw [hn, Option.bind_some, partsFrom_scanners src (close.1 + 1), ← hclose]
        dsimp only
        rw [show i + 1 + n + 1 = i + 1 + (n + 1) by omega, drop_add_of_drop_eq_cons h (n + 1),
          show i + 1 + (n + 1) = i + 2 + n by omega]
    · rw [if_neg hopen, if_neg hopen, partsFrom_scanners src (i + 1),
        (getElem?_of_drop_eq_cons h).2]
termination_by src.length - i

/-- The scanners take a template to end where it is found to close. -/
theorem stop_template_scanners {i : Nat} {b : Byte} {rest : Text} (h : src.drop i = b :: rest) :
    ((scanners src).template i).map (·.1.stop) =
      (closeTail .template [] rest).map (i + 1 + ·) := by
  rw [← stop_templateTail, ← (getElem?_of_drop_eq_cons h).2, ← templateParts, ← template_scanners,
    Option.map_map]
  rfl

/-- A step of the loop over some bytes moves the offset on by as many. -/
theorem map_closeTail_step {i i' : Nat} {b : Byte} {rest : Text} {found : Option Nat} {top : Frame}
    {below : List Frame} (k : Nat) (h : src.drop i = b :: rest) (hi : i' = i + 1 + k)
    (ih : found.map (· + 1) = (closeTail top below (src.drop i')).map (i' + ·)) :
    found.map (· + 1) = ((closeTail top below (rest.drop k)).map (· + (k + 1))).map (i + ·) := by
  rw [ih, hi, drop_add_of_drop_eq_cons h, Option.map_map]
  refine congrArg (Option.map · _) (funext fun n => ?_)
  show i + 1 + k + n = i + (n + (k + 1))
  omega

/-- The loop over a group, with the scanners of the text, finds its end. -/
theorem groupFrom_scanners (src : Text) (close : Byte) (outer : List Byte) (i : Nat) :
    (groupFrom (scanners src) src (close :: outer) i).map (· + 1) =
      (closeTail (.group close) (outer.map .group) (src.drop i)).map (i + ·) := by
  cases h : src.drop i with
  | nil =>
    rw [groupFrom_nil h, closeTail]
    rfl
  | cons b rest =>
    have hlt := Read.lt_length_of_drop_eq_cons h
    rw [groupFrom_cons h, closeTail_group_cons]
    cases lead b rest with
    | string quote =>
      dsimp only
      cases stringTail quote rest with
      | none => rfl
      | some n => exact map_closeTail_step n h rfl (groupFrom_scanners src close outer (i + 1 + n))
    | template =>
      have hclose := stop_template_scanners h
      dsimp only
      rw [closeTail_cons]
      cases hparts : (scanners src).template i with
      | none =>
        rw [hparts, Option.map_none, eq_comm, Option.map_eq_none_iff] at hclose
        rw [hclose]
        rfl
      | some parts =>
        rw [hparts, Option.map_some, eq_comm, Option.map_eq_some_iff] at hclose
        obtain ⟨n, hn, hstop⟩ := hclose
        have hadv := parts.2
        rw [hn, Option.bind_some, Option.bind_some, map_add_add]
        exact map_closeTail_step n h hstop.symm (groupFrom_scanners src close outer parts.1.stop)
    | lineComment => exact map_closeTail_step _ h rfl (groupFrom_scanners src close outer _)
    | blockComment =>
      dsimp only
      cases commentTail (rest.drop 1) with
      | none => rfl
      | some n =>
        exact map_closeTail_step (n + 1) h (by omega)
          (groupFrom_scanners src close outer (i + 2 + n))
    | group inner =>
      exact map_closeTail_step 0 h rfl (groupFrom_scanners src inner (close :: outer) (i + 1))
    | plain =>
      dsimp only
      by_cases hcloser : b.isCloser = true
      · rw [if_pos hcloser, if_pos hcloser]
        by_cases heq : b = close
        · rw [if_pos heq, if_pos (beq_iff_eq.mpr heq)]
          cases outer with
          | nil => rfl
          | cons next more =>
            exact map_closeTail_step 0 h rfl (groupFrom_scanners src next more (i + 1))
        · rw [if_neg heq, if_neg (mt beq_iff_eq.mp heq)]
          rfl
      · rw [if_neg hcloser, if_neg hcloser]
        exact map_closeTail_step 0 h rfl (groupFrom_scanners src close outer (i + 1))
termination_by src.length - i

/-- Two pairs of scanners with the same answers at an offset. -/
structure Scanners.AgreeAt (s s' : Scanners) (pos : Nat) : Prop where
  matching : s.matching pos = s'.matching pos
  template : s.template pos = s'.template pos

/-- The scanners of a text are what they answer with calls to each other. -/
theorem next_scanners (src : Text) : (scanners src).next src = scanners src := by
  have hmatching (pos : Nat) :
      ((scanners src).next src).matching pos = (scanners src).matching pos := by
    apply Option.map_injective Subtype.val_injective
    rw [matching_scanners, matching]
    cases h : src.drop pos with
    | nil =>
      have hend : src[pos]? = none := by rw [← List.head?_drop, h]; rfl
      simp [Scanners.next, hend]
    | cons b rest =>
      obtain ⟨hb, hrest⟩ := getElem?_of_drop_eq_cons h
      simp only [Scanners.next, hb, Option.bind_some, Option.map_bind]
      refine congrArg (Option.bind _) (funext fun close => ?_)
      have hgroup := groupFrom_scanners src close [] (pos + 1)
      rw [hrest] at hgroup
      apply Option.map_injective (f := (· + 1)) (fun _ _ => Nat.succ.inj)
      simp [Option.map_pmap, hgroup]
      refine congrArg (Option.map · _) (funext fun n => ?_)
      show pos + 1 + n = pos + n + 1
      omega
  have htemplate (pos : Nat) :
      ((scanners src).next src).template pos = (scanners src).template pos := by
    apply Option.map_injective Subtype.val_injective
    rw [template_scanners]
    simp [Scanners.next, Option.map_pmap, partsFrom_scanners, templateParts]
  exact Scanners.ext (funext hmatching) (funext htemplate)

/-- A group depends on the templates from the offset on. -/
theorem groupFrom_congr {stack : List Byte} {i : Nat}
    (h : ∀ pos, i ≤ pos → s.template pos = s'.template pos) :
    groupFrom s src stack i = groupFrom s' src stack i := by
  have hstep {stack' : List Byte} {i' : Nat} (hlt : i < i') (hin : i < src.length) :
      groupFrom s src stack' i' = groupFrom s' src stack' i' :=
    groupFrom_congr fun pos hpos => h pos (by omega)
  conv_lhs => rw [groupFrom]
  conv_rhs => rw [groupFrom]
  split
  case h_1 => rfl
  case h_2 b rest hdrop =>
    have hin : i < src.length := by
      have := Read.lt_length_of_drop_eq_cons hdrop
      omega
    split
    · split
      · rfl
      · exact hstep (by omega) hin
    · rw [h i (Nat.le_refl i)]
      cases s'.template i with
      | none => rfl
      | some parts => exact hstep parts.2 hin
    · exact hstep (by omega) hin
    · split
      · rfl
      · exact hstep (by omega) hin
    · exact hstep (by omega) hin
    · split
      · split
        · rfl
        · rw [hstep (Nat.lt_succ_self i) hin]
      · exact hstep (by omega) hin
termination_by src.length - i

/-- A template depends on the brackets behind the offset. -/
theorem partsFrom_congr {i : Nat}
    (h : ∀ pos, i < pos → s.matching pos = s'.matching pos) :
    partsFrom s src i = partsFrom s' src i := by
  have hstep (i' : Nat) (hlt : i < i') (hin : i < src.length) :
      partsFrom s src i' = partsFrom s' src i' :=
    partsFrom_congr fun pos hpos => h pos (by omega)
  conv_lhs => rw [partsFrom]
  conv_rhs => rw [partsFrom]
  split
  case h_1 => rfl
  case h_2 b rest hdrop =>
    have hin : i < src.length := by
      have := Read.lt_length_of_drop_eq_cons hdrop
      omega
    rw [hstep (i + 2) (by omega) hin, hstep (i + 1) (by omega) hin,
      h (i + 1) (Nat.lt_succ_self i)]
    split
    · rfl
    · split
      · rfl
      · split
        · cases s'.matching (i + 1) with
          | none => rfl
          | some close =>
            dsimp only
            rw [hstep _ (Nat.lt_succ_of_lt (Nat.lt_of_succ_lt close.2)) hin]
        · rfl
termination_by src.length - i

/-- What the scanners answer about an offset depends only on what they are
answered about offsets that have less of the text left. -/
theorem Scanners.AgreeAt.next {pos : Nat}
    (h : ∀ pos', src.length - pos' < src.length - pos → s.AgreeAt s' pos') :
    (s.next src).AgreeAt (s'.next src) pos := by
  rcases Nat.lt_or_ge pos src.length with hin | hout
  · have hmatching (pos' : Nat) (hlt : pos < pos') : s.matching pos' = s'.matching pos' :=
      (h pos' (by omega)).matching
    have htemplate (pos' : Nat) (hlt : pos < pos') : s.template pos' = s'.template pos' :=
      (h pos' (by omega)).template
    have hgroup (stack : List Byte) :
        groupFrom s src stack (pos + 1) = groupFrom s' src stack (pos + 1) :=
      groupFrom_congr htemplate
    have hparts : partsFrom s src (pos + 1) = partsFrom s' src (pos + 1) :=
      partsFrom_congr fun pos' hlt => hmatching pos' (Nat.lt_of_succ_lt hlt)
    constructor
    · simp only [Scanners.next, hgroup]
    · simp only [Scanners.next, hparts]
  · have hend : src[pos]? = none := List.getElem?_eq_none hout
    have hparts (s : Scanners) : partsFrom s src (pos + 1) = none := by
      rw [partsFrom.eq_def, List.drop_eq_nil_of_le (Nat.le_succ_of_le hout)]
    constructor
    · simp [Scanners.next, hend]
    · simp [Scanners.next, hparts]

/-- There is one pair of scanners that answers the calls it makes. -/
theorem next_eq_self_iff : s.next src = s ↔ s = scanners src := by
  constructor
  · intro hfixed
    have hagree (pos : Nat) : s.AgreeAt (scanners src) pos := by
      induction hleft : src.length - pos using Nat.strongRecOn generalizing pos with
      | ind left ih =>
        rw [← hfixed, ← next_scanners src]
        exact Scanners.AgreeAt.next fun pos' hlt => ih _ (hleft ▸ hlt) pos' rfl
    exact Scanners.ext (funext fun pos => (hagree pos).matching)
      (funext fun pos => (hagree pos).template)
  · rintro rfl
    exact next_scanners src

end Scan
end JsxStyle
