import JsxStyle.Scan.Split
import JsxStyle.Scan.Template

/-!
# How scans come to their ends

A scan that finds the end of something got there step by step, and each step took a
few bytes of one of a few kinds: an escape, a literal or a comment as a whole, the
byte that opens a construct or the one that closes it.  For each scanner there is a
relation with a constructor for each kind of step, and it holds of whatever the scanner
answers.  A fact about the ends that are found is shown by induction on it, and needs
no word on scans that find none.

* `StringTrace`: up to the quote that closes a string;
* `CloseTrace`: up to the byte that closes the outermost of several constructs;
* `TemplateTrace`: the parts of a template literal;
* `SegmentsTrace`: the ranges between commas.
-/

namespace JsxStyle

namespace Scan

open Ascii

variable {src : Text}

/-! ### The byte at an offset -/

/-- What is left of a text from an offset on begins with the byte there. -/
theorem getElem?_of_drop_eq_cons {pos : Nat} {b : Byte} {rest : Text}
    (h : src.drop pos = b :: rest) : src[pos]? = some b ∧ src.drop (pos + 1) = rest := by
  constructor
  · rw [← List.head?_drop, h, List.head?_cons]
  · rw [← List.drop_drop, h, List.drop_succ_cons, List.drop_zero]

/-- So does a range of it. -/
theorem getElem?_of_slice_eq_cons {lo hi : Nat} {b : Byte} {rest : Text}
    (h : src.slice lo hi = b :: rest) : src[lo]? = some b := by
  obtain ⟨more, hmore⟩ : src.slice lo hi <+: src.drop lo := List.take_prefix ..
  rw [h] at hmore
  exact (getElem?_of_drop_eq_cons hmore.symm).1

section Lead

variable {b : Byte} {rest : Text}

/-- A string begins with its quote. -/
theorem isQuote_of_lead {quote : Byte} (h : lead b rest = .string quote) :
    b = quote ∧ quote.isQuote = true := by
  unfold lead at h
  grind

/-- A template begins with a backtick. -/
theorem eq_tick_of_lead (h : lead b rest = .template) : b = tick := by
  unfold lead at h
  grind

/-- A line comment begins with two slashes. -/
theorem slashes_of_lead (h : lead b rest = .lineComment) :
    b = slash ∧ rest.head? = some slash := by
  unfold lead at h
  grind

/-- A block comment begins with a slash and a star. -/
theorem star_of_lead (h : lead b rest = .blockComment) : b = slash ∧ rest.head? = some star := by
  unfold lead at h
  grind

/-- A group begins with the bracket that its last byte closes. -/
theorem closer?_of_lead {close : Byte} (h : lead b rest = .group close) :
    b.closer? = some close := by
  unfold lead at h
  grind

end Lead

/-! ### Strings -/

/-- A byte of a string that is no backslash. -/
theorem stringTail_cons {q b : Byte} (hb : b ≠ backslash) (rest : Text) :
    stringTail q (b :: rest) =
      if b = newline then none else if b = q then some 1 else (stringTail q rest).map (· + 1) := by
  rw [stringTail.eq_def]
  simp only [if_neg hb]

/-- How the end of a string is found. -/
inductive StringTrace (quote : Byte) : Text → Nat → Prop
  | closing {rest : Text} : StringTrace quote (quote :: rest) 1
  | escape {c : Byte} {rest : Text} {n : Nat} (htrace : StringTrace quote rest n) :
      StringTrace quote (backslash :: c :: rest) (n + 2)
  | byte {b : Byte} {rest : Text} {n : Nat} (hslash : b ≠ backslash) (hline : b ≠ newline)
      (hquote : b ≠ quote) (htrace : StringTrace quote rest n) :
      StringTrace quote (b :: rest) (n + 1)

/-- A string that ends has a trace. -/
theorem stringTrace {quote : Byte} {t : Text} {n : Nat} (h : stringTail quote t = some n) :
    StringTrace quote t n := by
  induction hlen : t.length using Nat.strongRecOn generalizing t n with
  | ind len ih =>
    subst hlen
    cases t with
    | nil => exact absurd h (by simp [stringTail])
    | cons b rest =>
      by_cases hslash : b = backslash
      · subst hslash
        cases rest with
        | nil => exact absurd h (by simp [stringTail])
        | cons c rest =>
          rw [stringTail, if_pos rfl] at h
          obtain ⟨k, hk, rfl⟩ := Option.map_eq_some_iff.mp h
          exact .escape (ih rest.length (by rw [List.length_cons, List.length_cons]; omega) hk rfl)
      rw [stringTail_cons hslash] at h
      by_cases hline : b = newline
      · exact absurd h (by simp [hline])
      rw [if_neg hline] at h
      by_cases hquote : b = quote
      · rw [if_pos hquote] at h
        obtain rfl := Option.some.inj h
        exact hquote ▸ .closing
      rw [if_neg hquote] at h
      obtain ⟨k, hk, rfl⟩ := Option.map_eq_some_iff.mp h
      exact .byte hslash hline hquote (ih rest.length (Nat.lt_succ_self _) hk rfl)

/-! ### Constructs in constructs -/

/-- The byte that ends a construct. -/
def Frame.closing : Frame → Byte
  | group close => close
  | template => tick

/-- How the search for an end goes on behind the byte that ends a frame. -/
def leave (below : List Frame) (rest : Text) : Option Nat :=
  match below with
  | [] => some 1
  | next :: outer => (closeTail next outer rest).map (· + 1)

/-- A byte in the text of a template. -/
theorem closeTail_template_cons (below : List Frame) (b : Byte) (rest : Text) :
    closeTail .template below (b :: rest) =
      if b = backslash then (closeTail .template below (rest.drop 1)).map (· + 2)
      else if b = tick then leave below rest
      else if b = dollar ∧ rest.head? = some openBrace then
        (closeTail (.group closeBrace) (.template :: below) (rest.drop 1)).map (· + 2)
      else (closeTail .template below rest).map (· + 1) := by
  rw [closeTail.eq_def]
  rfl

/-- A byte in a group. -/
theorem closeTail_group_cons (close : Byte) (below : List Frame) (b : Byte) (rest : Text) :
    closeTail (.group close) below (b :: rest) =
      match lead b rest with
      | .string quote =>
        (stringTail quote rest).bind fun n =>
          (closeTail (.group close) below (rest.drop n)).map (· + (n + 1))
      | .template => (closeTail .template (.group close :: below) rest).map (· + 1)
      | .lineComment =>
        (closeTail (.group close) below (rest.drop (lineTail rest))).map (· + (lineTail rest + 1))
      | .blockComment =>
        (commentTail (rest.drop 1)).bind fun n =>
          (closeTail (.group close) below (rest.drop (n + 1))).map (· + (n + 2))
      | .group inner => (closeTail (.group inner) (.group close :: below) rest).map (· + 1)
      | .plain =>
        if b.isCloser then if b = close then leave below rest else none
        else (closeTail (.group close) below rest).map (· + 1) := by
  rw [closeTail.eq_def]
  cases h : lead b rest with
  | string quote => cases h' : stringTail quote rest <;> simp only [h, h'] <;> rfl
  | blockComment => cases h' : commentTail (rest.drop 1) <;> simp only [h, h'] <;> rfl
  | _ => simp only [h] <;> rfl

/-- How the end of the outermost construct is found, from within `top` and `below`. -/
inductive CloseTrace : (top : Frame) → (below : List Frame) → Text → Nat → Prop
  | last {top : Frame} {rest : Text} : CloseTrace top [] (top.closing :: rest) 1
  | next {top next : Frame} {outer : List Frame} {rest : Text} {n : Nat}
      (htrace : CloseTrace next outer rest n) :
      CloseTrace top (next :: outer) (top.closing :: rest) (n + 1)
  | escape {below : List Frame} {b : Byte} {rest : Text} {n : Nat}
      (htrace : CloseTrace .template below rest n) :
      CloseTrace .template below (backslash :: b :: rest) (n + 2)
  | hole {below : List Frame} {rest : Text} {n : Nat}
      (htrace : CloseTrace (.group closeBrace) (.template :: below) rest n) :
      CloseTrace .template below (dollar :: openBrace :: rest) (n + 2)
  | byte {below : List Frame} {b : Byte} {rest : Text} {n : Nat} (hslash : b ≠ backslash)
      (htick : b ≠ tick) (hhole : ¬(b = dollar ∧ rest.head? = some openBrace))
      (htrace : CloseTrace .template below rest n) :
      CloseTrace .template below (b :: rest) (n + 1)
  | string {close b : Byte} {below : List Frame} {rest : Text} {k n : Nat}
      (hquote : b.isQuote = true) (htail : stringTail b rest = some k)
      (htrace : CloseTrace (.group close) below (rest.drop k) n) :
      CloseTrace (.group close) below (b :: rest) (n + (k + 1))
  | template {close : Byte} {below : List Frame} {rest : Text} {n : Nat}
      (htrace : CloseTrace .template (.group close :: below) rest n) :
      CloseTrace (.group close) below (tick :: rest) (n + 1)
  | lineComment {close b : Byte} {below : List Frame} {rest : Text} {n : Nat}
      (hlead : lead b rest = .lineComment)
      (htrace : CloseTrace (.group close) below (rest.drop (lineTail rest)) n) :
      CloseTrace (.group close) below (b :: rest) (n + (lineTail rest + 1))
  | blockComment {close : Byte} {below : List Frame} {rest : Text} {k n : Nat}
      (htail : commentTail rest = some k)
      (htrace : CloseTrace (.group close) below (rest.drop k) n) :
      CloseTrace (.group close) below (slash :: star :: rest) (n + (k + 2))
  | group {close inner b : Byte} {below : List Frame} {rest : Text} {n : Nat}
      (hopen : b.closer? = some inner)
      (htrace : CloseTrace (.group inner) (.group close :: below) rest n) :
      CloseTrace (.group close) below (b :: rest) (n + 1)
  | plain {close b : Byte} {below : List Frame} {rest : Text} {n : Nat}
      (hlead : lead b rest = .plain) (hcloser : ¬b.isCloser = true)
      (htrace : CloseTrace (.group close) below rest n) :
      CloseTrace (.group close) below (b :: rest) (n + 1)

/-- An end that is found has a trace. -/
theorem closeTrace {top : Frame} {below : List Frame} {t : Text} {n : Nat}
    (h : closeTail top below t = some n) : CloseTrace top below t n := by
  induction hlen : t.length using Nat.strongRecOn generalizing top below t n with
  | ind len ih =>
    subst hlen
    cases t with
    | nil => exact absurd h (by simp [closeTail])
    | cons b rest =>
      have hnext {top : Frame} {below : List Frame} {k n : Nat}
          (h : closeTail top below (rest.drop k) = some n) : CloseTrace top below (rest.drop k) n :=
        ih _ (by rw [List.length_drop, List.length_cons]; omega) h rfl
      have hleave {top : Frame} {n : Nat} (hb : b = top.closing)
          (hend : leave below rest = some n) : CloseTrace top below (b :: rest) n := by
        subst hb
        cases below with
        | nil =>
          obtain rfl := Option.some.inj hend
          exact .last
        | cons next outer =>
          obtain ⟨m, hm, rfl⟩ := Option.map_eq_some_iff.mp hend
          exact .next (hnext (k := 0) hm)
      cases top with
      | template =>
        rw [closeTail_template_cons] at h
        by_cases hslash : b = backslash
        · rw [if_pos hslash] at h
          obtain ⟨m, hm, rfl⟩ := Option.map_eq_some_iff.mp h
          cases rest with
          | nil => exact absurd hm (by simp [closeTail])
          | cons c rest => exact hslash ▸ .escape (hnext (k := 1) hm)
        rw [if_neg hslash] at h
        by_cases htick : b = tick
        · rw [if_pos htick] at h
          exact hleave htick h
        rw [if_neg htick] at h
        by_cases hhole : b = dollar ∧ rest.head? = some openBrace
        · rw [if_pos hhole] at h
          obtain ⟨rfl, hbrace⟩ := hhole
          obtain ⟨rest, rfl⟩ := List.head?_eq_some_iff.mp hbrace
          obtain ⟨m, hm, rfl⟩ := Option.map_eq_some_iff.mp h
          exact .hole (hnext (k := 1) hm)
        · rw [if_neg hhole] at h
          obtain ⟨m, hm, rfl⟩ := Option.map_eq_some_iff.mp h
          exact .byte hslash htick hhole (hnext (k := 0) hm)
      | group close =>
        rw [closeTail_group_cons] at h
        cases hlead : lead b rest with
        | string quote =>
          obtain ⟨rfl, hquote⟩ := isQuote_of_lead hlead
          simp only [hlead, Option.bind_eq_some_iff, Option.map_eq_some_iff] at h
          obtain ⟨k, hk, m, hm, rfl⟩ := h
          exact .string hquote hk (hnext hm)
        | template =>
          obtain rfl := eq_tick_of_lead hlead
          simp only [hlead, Option.map_eq_some_iff] at h
          obtain ⟨m, hm, rfl⟩ := h
          exact .template (hnext (k := 0) hm)
        | lineComment =>
          simp only [hlead, Option.map_eq_some_iff] at h
          obtain ⟨m, hm, rfl⟩ := h
          exact .lineComment hlead (hnext hm)
        | blockComment =>
          obtain ⟨rfl, hstar⟩ := star_of_lead hlead
          obtain ⟨rest, rfl⟩ := List.head?_eq_some_iff.mp hstar
          simp only [hlead, Option.bind_eq_some_iff, Option.map_eq_some_iff] at h
          obtain ⟨k, hk, m, hm, rfl⟩ := h
          exact .blockComment hk (hnext (k := k + 1) hm)
        | group inner =>
          simp only [hlead, Option.map_eq_some_iff] at h
          obtain ⟨m, hm, rfl⟩ := h
          exact .group (closer?_of_lead hlead) (hnext (k := 0) hm)
        | plain =>
          simp only [hlead] at h
          by_cases hcloser : b.isCloser = true
          · rw [if_pos hcloser] at h
            by_cases hclose : b = close
            · rw [if_pos hclose] at h
              exact hleave hclose h
            · exact absurd h (by simp [hclose])
          · rw [if_neg hcloser] at h
            obtain ⟨m, hm, rfl⟩ := Option.map_eq_some_iff.mp h
            exact .plain hlead hcloser (hnext (k := 0) hm)

/-! ### Templates -/

/-- How a template literal comes apart: into bytes that stand for themselves, escapes and
holes, up to the backtick. -/
inductive TemplateTrace : (pos : Nat) → Text → TemplateParts → Prop
  | closing {pos : Nat} {rest : Text} : TemplateTrace pos (tick :: rest) ⟨[[]], [], pos + 1⟩
  | escape {pos : Nat} {c : Byte} {rest : Text} {p : TemplateParts}
      (htrace : TemplateTrace (pos + 2) rest p) :
      TemplateTrace pos (backslash :: c :: rest) (p.extend [backslash, c])
  | hole {pos n : Nat} {rest : Text} {p : TemplateParts}
      (hclose : closeTail (.group closeBrace) [] rest = some n)
      (htrace : TemplateTrace (pos + 2 + n) (rest.drop n) p) :
      TemplateTrace pos (dollar :: openBrace :: rest) (p.consHole ⟨pos + 2, pos + 1 + n⟩)
  | byte {pos : Nat} {b : Byte} {rest : Text} {p : TemplateParts} (hslash : b ≠ backslash)
      (htick : b ≠ tick) (hhole : ¬(b = dollar ∧ rest.head? = some openBrace))
      (htrace : TemplateTrace (pos + 1) rest p) : TemplateTrace pos (b :: rest) (p.extend [b])

/-- A template that is taken apart has a trace. -/
theorem templateTrace {pos : Nat} {t : Text} {p : TemplateParts}
    (h : templateTail pos t = some p) : TemplateTrace pos t p := by
  induction hlen : t.length using Nat.strongRecOn generalizing pos t p with
  | ind len ih =>
    subst hlen
    cases t with
    | nil => exact absurd h (by simp [templateTail])
    | cons b rest =>
      have hnext {pos k : Nat} {p : TemplateParts} (h : templateTail pos (rest.drop k) = some p) :
          TemplateTrace pos (rest.drop k) p :=
        ih _ (by rw [List.length_drop, List.length_cons]; omega) h rfl
      rw [templateTail] at h
      by_cases hslash : b = backslash
      · rw [if_pos hslash] at h
        obtain ⟨q, hq, rfl⟩ := Option.map_eq_some_iff.mp h
        subst hslash
        cases rest with
        | nil => exact absurd hq (by simp [templateTail])
        | cons c rest => exact .escape (hnext (k := 1) hq)
      rw [if_neg hslash] at h
      by_cases htick : b = tick
      · rw [if_pos htick] at h
        obtain rfl := Option.some.inj h
        exact htick ▸ .closing
      rw [if_neg htick] at h
      by_cases hhole : b = dollar ∧ rest.head? = some openBrace
      · rw [if_pos hhole] at h
        obtain ⟨rfl, hbrace⟩ := hhole
        obtain ⟨rest, rfl⟩ := List.head?_eq_some_iff.mp hbrace
        cases hclose : closeTail (.group closeBrace) [] rest with
        | none => exact absurd h (by simp [hclose])
        | some n =>
          simp only [List.drop_succ_cons, List.drop_zero, hclose] at h
          obtain ⟨q, hq, rfl⟩ := Option.map_eq_some_iff.mp h
          exact .hole hclose (hnext (k := n + 1) hq)
      · rw [if_neg hhole] at h
        obtain ⟨q, hq, rfl⟩ := Option.map_eq_some_iff.mp h
        exact .byte hslash htick hhole (hnext (k := 0) hq)

/-- A template literal comes apart into one chunk more than holes. -/
theorem TemplateTrace.length_chunks {pos : Nat} {t : Text} {p : TemplateParts}
    (h : TemplateTrace pos t p) : p.chunks.length = p.holes.length + 1 := by
  have hextend {bytes : Text} {q : TemplateParts} (hq : q.chunks.length = q.holes.length + 1) :
      (q.extend bytes).chunks.length = (q.extend bytes).holes.length + 1 := by
    obtain ⟨chunk, chunks, hchunks⟩ := List.exists_cons_of_length_eq_add_one hq
    simpa [TemplateParts.extend, hchunks] using hq
  induction h with
  | closing => rfl
  | escape _ ih => exact hextend ih
  | hole _ _ ih => exact congrArg (· + 1) ih
  | byte _ _ _ _ ih => exact hextend ih

theorem length_chunks_of_templateTail {pos : Nat} {t : Text} {p : TemplateParts}
    (h : templateTail pos t = some p) : p.chunks.length = p.holes.length + 1 :=
  (templateTrace h).length_chunks

/-- So there is a chunk behind every hole, and one in front. -/
theorem TemplateTrace.chunks_ne_nil {pos : Nat} {t : Text} {p : TemplateParts}
    (h : TemplateTrace pos t p) : p.chunks ≠ [] :=
  List.ne_nil_of_length_eq_add_one h.length_chunks

/-! ### Segments -/

/-- How a range is cut at its commas, the first piece of which begins at `start`. -/
inductive SegmentsTrace (src : Text) (hi : Nat) : (start i : Nat) → List Span → Prop
  | done {start i : Nat} : SegmentsTrace src hi start i []
  | last {start i : Nat} : SegmentsTrace src hi start i [⟨start, hi⟩]
  | pass {start i j : Nat} {ranges : List Span} (hj : i < j)
      (htrace : SegmentsTrace src hi start j ranges) : SegmentsTrace src hi start i ranges
  | comma {start i : Nat} {ranges : List Span} (hlt : i < hi) (hcomma : src[i]? = some comma)
      (htrace : SegmentsTrace src hi (i + 1) (i + 1) ranges) :
      SegmentsTrace src hi start i (⟨start, i⟩ :: ranges)

/-- A range that is cut has a trace. -/
theorem segmentsTrace {hi start i : Nat} {ranges : List Span}
    (h : segmentsFrom src hi start i = some ranges) : SegmentsTrace src hi start i ranges := by
  induction hn : hi - i using Nat.strongRecOn generalizing start i ranges with
  | ind n ih =>
    subst hn
    rw [segmentsFrom] at h
    by_cases hlt : i < hi
    · have hpass {j : Nat} (hj : i < j) (h : segmentsFrom src hi start j = some ranges) :
          SegmentsTrace src hi start i ranges := .pass hj (ih (hi - j) (by omega) h rfl)
      rw [if_pos hlt] at h
      cases hdrop : src.drop i with
      | nil =>
        rw [hdrop] at h
        obtain rfl := Option.some.inj h
        exact .done
      | cons b rest =>
        rw [hdrop] at h
        dsimp only at h
        cases hlead : lead b rest with
        | string quote =>
          rw [hlead] at h
          cases htail : stringTail quote rest with
          | none => exact absurd h (by simp [htail])
          | some k =>
            simp only [htail] at h
            exact hpass (by omega) h
        | template =>
          rw [hlead] at h
          cases hclose : closeTail .template [] rest with
          | none => exact absurd h (by simp [hclose])
          | some k =>
            simp only [hclose] at h
            exact hpass (by omega) h
        | group close =>
          rw [hlead] at h
          cases hclose : closeTail (.group close) [] rest with
          | none => exact absurd h (by simp [hclose])
          | some k =>
            simp only [hclose] at h
            exact hpass (by omega) h
        | blockComment =>
          rw [hlead] at h
          cases htail : commentTail (rest.drop 1) with
          | none =>
            simp only [htail] at h
            exact absurd h (by simp)
          | some k =>
            simp only [htail] at h
            exact hpass (by omega) h
        | lineComment =>
          rw [hlead] at h
          exact hpass (Nat.lt_succ_self i) h
        | plain =>
          rw [hlead] at h
          dsimp only at h
          by_cases hcomma : b = comma
          · rw [if_pos hcomma] at h
            obtain ⟨more, hmore, rfl⟩ := Option.map_eq_some_iff.mp h
            exact .comma hlt (hcomma ▸ (getElem?_of_drop_eq_cons hdrop).1)
              (ih (hi - (i + 1)) (by omega) hmore rfl)
          · rw [if_neg hcomma] at h
            exact hpass (Nat.lt_succ_self i) h
    · rw [if_neg hlt] at h
      split at h
      · obtain rfl := Option.some.inj h
        exact .done
      · obtain rfl := Option.some.inj h
        exact .last

end Scan

end JsxStyle
