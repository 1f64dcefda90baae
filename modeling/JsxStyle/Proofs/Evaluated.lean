import JsxStyle.Proofs.Chunks
import JsxStyle.Proofs.Cooked
import JsxStyle.Proofs.Trimming
import JsxStyle.Proofs.Verbatim
import JsxStyle.Style.Template

/-!
# What a template evaluates to

A template whose holes are string and number literals has a value that is known in
advance: its chunks and strings with their escapes cooked, and its numbers in the one
spelling that a number is shown in.  The program takes chunks and strings for what its
own reading of escapes gives, and numbers for what is written.

A template for which the program has a class string is of this kind: the source shows
its literals, with white space around them at most.  So if the escapes in it are those
that the program knows and its numbers are spelled as they are shown, the class string
is the value of the template.

* `Numeral.shown_of_isReduced`: spellings that are shown as they are;
* `Hole.WellFormed.eq_of_text`: a hole is written in one way, since literals begin and
  end with what is no white space;
* `LiteralTemplate.value_of_isPlain`: templates that the program takes for their value;
* `Tree.static_classes_value`: the class string of a template of a module.
-/

namespace JsxStyle

open Ascii Scan

namespace Text

/-- The digit zero. -/
abbrev zero : Byte := 0x30

/-- A decimal number without an exponent: its sign, and the digits on both sides of its point. -/
structure Numeral where
  negative : Bool
  whole : Text
  part : Text
deriving DecidableEq, Repr

/-- The number that a text spells, if it spells one without an exponent. -/
def numeral? (t : Text) : Option Numeral :=
  let digits := (dropSign t).takeWhile Byte.isDigit
  match (dropSign t).dropWhile Byte.isDigit with
  | [] => if digits = [] then none else some ⟨t.head? == some hyphen, digits, []⟩
  | b :: rest =>
    if b = dot ∧ rest.all Byte.isDigit ∧ (digits ≠ [] ∨ rest ≠ []) then
      some ⟨t.head? == some hyphen, digits, rest⟩
    else none

namespace Numeral

variable (n : Numeral)

/-- The digits before the point that count. -/
def countedWhole : Text :=
  n.whole.dropWhile (· == zero)

/-- The digits behind the point that count. -/
def countedPart : Text :=
  (n.part.reverse.dropWhile (· == zero)).reverse

/-- How many digits there are from the first to the last that is not zero. -/
def significant : Nat :=
  (((n.whole ++ n.part).dropWhile (· == zero)).reverse.dropWhile (· == zero)).length

/-- A number as it is shown: without a plus sign, and with no more zeros than it needs. -/
def shown : Text :=
  if n.countedWhole = [] ∧ n.countedPart = [] then [zero]
  else
    (if n.negative then [hyphen] else []) ++
      (if n.countedWhole = [] then [zero] else n.countedWhole) ++
      (if n.countedPart = [] then [] else dot :: n.countedPart)

/-- A number as it is spelled without a plus sign and without a point that nothing follows. -/
def spelled : Text :=
  (if n.negative then [hyphen] else []) ++ n.whole ++ (if n.part = [] then [] else dot :: n.part)

/-- Whether a number has no digits more than it needs, and no sign where it is zero. -/
def isReduced : Bool :=
  (n.whole == [zero] || n.whole.head?.any (· != zero)) && n.part.getLast?.all (· != zero) &&
    !(n.negative && n.whole == [zero] && n.part.isEmpty)

variable {n}

/-- Where the last digit behind the point is not zero, all of them count. -/
theorem countedPart_of_last (h : n.part.getLast?.all (· != zero) = true) :
    n.countedPart = n.part := by
  rw [countedPart]
  cases hlast : n.part.reverse with
  | nil => rw [← List.reverse_reverse n.part, hlast]; rfl
  | cons b rest =>
    rw [List.getLast?_eq_head?_reverse, hlast] at h
    rw [List.dropWhile_cons_of_neg (by simpa using h), ← hlast, List.reverse_reverse]

/-- A number that is spelled with no more than it needs is shown as it is spelled. -/
theorem shown_of_isReduced (h : n.isReduced = true) : n.shown = n.spelled := by
  simp only [isReduced, Bool.and_eq_true, Bool.or_eq_true, Bool.not_eq_true', Bool.and_eq_false_iff,
    beq_iff_eq] at h
  obtain ⟨⟨hwhole, hpart⟩, hsign⟩ := h
  rw [shown, spelled, countedPart_of_last hpart]
  rcases hwhole with hwhole | hwhole
  · have hnone : n.countedWhole = [] := by rw [countedWhole, hwhole]; rfl
    rw [hnone, hwhole]
    by_cases hempty : n.part = []
    · have hpositive : n.negative = false := by simpa [hwhole, hempty] using hsign
      rw [if_pos ⟨rfl, hempty⟩, hpositive, if_pos hempty]
      rfl
    · rw [if_neg (fun e => hempty e.2), if_pos rfl]
  · have hall : n.countedWhole = n.whole ∧ n.whole ≠ [] := by
      rw [countedWhole]
      cases hdigits : n.whole with
      | nil => simp [hdigits] at hwhole
      | cons b rest =>
        rw [hdigits, List.head?_cons, Option.any_some] at hwhole
        exact ⟨List.dropWhile_cons_of_neg (by simpa using hwhole), List.cons_ne_nil b rest⟩
    rw [hall.1, if_neg (fun e => hall.2 e.1), if_neg hall.2]

end Numeral

/-- Whether a text spells a number as it is shown, with digits that are all significant. -/
def isShownNumber (t : Text) : Bool :=
  (numeral? t).any fun n => n.isReduced && n.spelled == t && n.significant ≤ 15

/-- How the number that a text spells is shown, if it has no more digits than are kept. -/
def shownNumber? (t : Text) : Option Text :=
  (numeral? t).bind fun n => if n.significant ≤ 15 then some n.shown else none

/-- A number that is spelled as it is shown is shown as it is spelled. -/
theorem shownNumber_of_isShownNumber {t : Text} (h : t.isShownNumber = true) :
    t.shownNumber? = some t := by
  cases hn : numeral? t with
  | none => simp [isShownNumber, hn] at h
  | some n =>
    simp only [isShownNumber, hn, Option.any_some, Bool.and_eq_true, beq_iff_eq,
      decide_eq_true_eq] at h
    obtain ⟨⟨hreduced, hspelled⟩, hfew⟩ := h
    rw [shownNumber?, hn, Option.bind_some, if_pos hfew, n.shown_of_isReduced hreduced, hspelled]

/-- A byte that neither is white space nor quotes anything. -/
def isSolid (b : Byte) : Bool :=
  b.isAscii && !isBlankByte b && !b.isQuote

/-- Digits are solid. -/
theorem isSolid_of_isDigit : ∀ b : Byte, b.isDigit = true → isSolid b = true :=
  forall_byte (by decide +kernel)

/-- Signs are solid. -/
theorem all_isSolid_of_dropSign {t : Text} (h : (dropSign t).all isSolid = true) :
    t.all isSolid = true := by
  cases t with
  | nil => rfl
  | cons b rest =>
    by_cases hsign : b = 0x2B ∨ b = hyphen
    · rw [dropSign, if_pos hsign] at h
      rcases hsign with rfl | rfl <;> exact h
    · rwa [dropSign, if_neg hsign] at h

/-- Digits are solid. -/
theorem all_isSolid_of_dropWhile {t : Text} (h : (t.dropWhile Byte.isDigit).all isSolid = true) :
    t.all isSolid = true := by
  rw [← List.takeWhile_append_dropWhile (p := Byte.isDigit) (l := t), List.all_append,
    Bool.and_eq_true, List.all_eq_true]
  exact ⟨fun b hb => isSolid_of_isDigit b (List.mem_takeWhile_imp hb), h⟩

/-- Exponents are solid. -/
theorem all_isSolid_of_isExponent {t : Text} (h : t.isExponent = true) :
    t.all isSolid = true := by
  have hletter : ∀ b : Byte, lowerByte b = 0x65 → isSolid b = true :=
    forall_byte (by decide +kernel)
  cases t with
  | nil => rfl
  | cons b rest =>
    rw [isExponent, Bool.and_eq_true, beq_iff_eq, isDigits, Bool.and_eq_true] at h
    rw [List.all_cons, hletter b h.1, Bool.true_and]
    exact all_isSolid_of_dropSign
      (List.all_eq_true.mpr fun d hd => isSolid_of_isDigit d (List.all_eq_true.mp h.2.2 d hd))

/-- A fraction is solid when what is behind it is. -/
theorem all_isSolid_of_fraction {t : Text} (h : (fraction t).2.all isSolid = true) :
    t.all isSolid = true := by
  cases t with
  | nil => rfl
  | cons b rest =>
    by_cases hdot : b = dot
    · rw [fraction, if_pos hdot] at h
      rw [List.all_cons, hdot]
      exact all_isSolid_of_dropWhile h
    · rwa [fraction, if_neg hdot] at h

/-- There is no white space in the spelling of a number, and no quote. -/
theorem all_isSolid_of_isDecimal {t : Text} (h : t.isDecimal = true) : t.all isSolid = true := by
  refine all_isSolid_of_dropSign ?_
  simp only [isDecimal, Bool.or_eq_true, Bool.and_eq_true, List.contains_iff_mem] at h
  rcases h with hword | ⟨-, hexponent⟩
  · have hletters : ∀ w ∈ [ofString "inf", ofString "infinity", ofString "nan"],
        w.all (ofString "infinityna").contains = true := by decide +kernel
    have hletter : ∀ b : Byte, (ofString "infinityna").contains (lowerByte b) = true →
        isSolid b = true := forall_byte (by decide +kernel)
    refine List.all_eq_true.mpr fun b hb => hletter b ?_
    exact List.all_eq_true.mp (hletters _ hword) _ (List.mem_map_of_mem hb)
  · exact all_isSolid_of_dropWhile (all_isSolid_of_fraction (all_isSolid_of_isExponent hexponent))

/-- There is nothing to trim off a text with visible ends. -/
theorem trimmed_of_ends {t : Text} {b c : Byte} (hhead : t.head? = some b)
    (hlast : t.getLast? = some c) (hb : b.isAscii = true ∧ isBlankByte b = false)
    (hc : c.isAscii = true ∧ isBlankByte c = false) : Trimmed t where
  ne_nil := by rintro rfl; exact absurd hhead (by simp)
  lead := by
    obtain ⟨rest, rfl⟩ := List.head?_eq_some_iff.mp hhead
    exact leadingBlank_of_visible hb.2 (Or.inl hb.1) rest
  trail := by
    obtain ⟨front, rfl⟩ := List.getLast?_eq_some_iff.mp hlast
    exact trimEnd_concat front hc.1 hc.2

/-- A decimal number has no white space at its ends. -/
theorem trimmed_of_isDecimal {t : Text} (h : t.isDecimal = true) : Trimmed t := by
  have hvisible : ∀ b ∈ t, b.isAscii = true ∧ isBlankByte b = false := by
    intro b hb
    have hsolid := List.all_eq_true.mp (all_isSolid_of_isDecimal h) b hb
    simp only [isSolid, Bool.and_eq_true, Bool.not_eq_true'] at hsolid
    exact hsolid.1
  have hne : t ≠ [] := by
    rintro rfl
    exact absurd h (by decide +kernel)
  exact trimmed_of_ends (List.head?_eq_some_head hne) (List.getLast?_eq_some_getLast hne)
    (hvisible _ (List.head_mem hne)) (hvisible _ (List.getLast_mem hne))

end Text

/-! ### Templates of literals -/

/-- A literal in a hole of a template. -/
inductive Literal where
  | string (quote : Byte) (raw : Text)
  | number (spelling : Text)
deriving DecidableEq, Repr

namespace Literal

/-- A literal as it is written. -/
def text : Literal → Text
  | string quote raw => quote :: (raw ++ [quote])
  | number spelling => spelling

/-- What a literal evaluates to, as a text. -/
def value : Literal → Option Text
  | string _ raw => raw.cook
  | number spelling => spelling.shownNumber?

/-- What the program takes a literal for. -/
def taken : Literal → Text
  | string _ raw => raw.unescape
  | number spelling => spelling

/-- A literal that is one. -/
def WellFormed : Literal → Prop
  | string quote raw => quote.isQuote = true ∧ StringBody quote raw
  | number spelling => spelling.isDecimal = true

/-- Whether the program takes a literal for its value by what is written there. -/
def isPlain : Literal → Bool
  | string _ raw => raw.isPlain
  | number spelling => spelling.isShownNumber

/-- The value of a plain literal is what is taken over of it. -/
theorem value_of_isPlain {l : Literal} (h : l.isPlain = true) : l.value = some l.taken := by
  cases l with
  | string quote raw => exact Text.cook_of_isPlain h
  | number spelling => exact Text.shownNumber_of_isShownNumber h

namespace WellFormed

variable {l l' : Literal}

/-- A literal begins and ends with what is no white space. -/
theorem trimmed (h : l.WellFormed) : l.text.Trimmed := by
  cases l with
  | string quote raw =>
    have hvisible : ∀ b : Byte, b.isQuote = true → b.isAscii = true ∧ Text.isBlankByte b = false :=
      forall_byte (by decide +kernel)
    have hlast : (quote :: (raw ++ [quote])).getLast? = some quote := by
      rw [← List.cons_append, List.getLast?_concat]
    exact Text.trimmed_of_ends rfl hlast (hvisible quote h.1) (hvisible quote h.1)
  | number spelling => exact Text.trimmed_of_isDecimal h

/-- Strings are no numbers. -/
theorem string_ne_number {quote : Byte} {raw spelling : Text}
    (h : (string quote raw).WellFormed) (h' : (number spelling).WellFormed) :
    (string quote raw).text ≠ (number spelling).text := by
  intro htext
  have hsolid := Text.all_isSolid_of_isDecimal h'
  rw [← show (string quote raw).text = spelling from htext, text, List.all_cons, Text.isSolid,
    h.1] at hsolid
  simp at hsolid

/-- A literal is written in one way. -/
theorem eq_of_text (h : l.WellFormed) (h' : l'.WellFormed) (htext : l.text = l'.text) :
    l = l' := by
  cases l with
  | string quote raw =>
    cases l' with
    | string quote' raw' =>
      obtain ⟨rfl, hraw⟩ := List.cons.inj htext
      rw [List.append_cancel_right hraw]
    | number spelling => exact absurd htext (string_ne_number h h')
  | number spelling =>
    cases l' with
    | string quote raw => exact absurd htext.symm (string_ne_number h' h)
    | number spelling' => exact congrArg number htext

end WellFormed

end Literal

/-- A hole of a template: a literal with white space around it. -/
structure Hole where
  before : Text
  literal : Literal
  after : Text
deriving DecidableEq, Repr

namespace Hole

/-- A hole as it is written, without its braces. -/
def text (h : Hole) : Text :=
  h.before ++ h.literal.text ++ h.after

/-- A literal with nothing but white space around it. -/
structure WellFormed (h : Hole) : Prop where
  before : h.before.isBlank = true
  literal : h.literal.WellFormed
  after : h.after.isBlank = true

namespace WellFormed

variable {h h' : Hole}

/-- The literal of a hole is what is left when the hole is trimmed. -/
theorem trim_text (hh : h.WellFormed) : h.text.trim = h.literal.text :=
  hh.literal.trimmed.trim_eq hh.before hh.after

/-- Without the white space before it, a hole is its literal and what comes behind. -/
theorem trimStart_text (hh : h.WellFormed) : h.text.trimStart = h.literal.text ++ h.after := by
  have htrimmed := hh.literal.trimmed
  rw [text, List.append_assoc, Text.trimStart_append_blank hh.before, Text.trimStart,
    Text.leadingBlank_append htrimmed.ne_nil (Text.parted_of_isBlank _ hh.after),
    if_pos htrimmed.lead]

/-- A hole is written in one way. -/
theorem eq_of_text (hh : h.WellFormed) (hh' : h'.WellFormed) (htext : h.text = h'.text) :
    h = h' := by
  have hliteral : h.literal = h'.literal :=
    hh.literal.eq_of_text hh'.literal (by rw [← hh.trim_text, htext, hh'.trim_text])
  have hafter : h.after = h'.after := by
    have hstart := hh.trimStart_text
    rw [htext, hh'.trimStart_text, hliteral] at hstart
    exact (List.append_cancel_left hstart).symm
  have hbefore : h.before = h'.before := by
    rw [text, text, hliteral, hafter] at htext
    exact List.append_cancel_right (List.append_cancel_right htext)
  cases h
  cases h'
  congr

end WellFormed

end Hole

/-- A template whose holes are literals. -/
structure LiteralTemplate where
  chunks : List Text
  holes : List Hole
deriving DecidableEq, Repr

/-- Chunks with what is in the holes between them. -/
def alternate : List Text → List Text → Text
  | [], _ => []
  | chunk :: chunks, [] => chunk ++ alternate chunks []
  | chunk :: chunks, hole :: holes => chunk ++ hole ++ alternate chunks holes

namespace LiteralTemplate

variable (l : LiteralTemplate)

/-- A template as it is written, without its tag. -/
def text : Text :=
  tick :: (templateBody l.chunks (l.holes.map (·.text)) ++ [tick])

/-- A template whose chunks end where its holes begin. -/
structure WellFormed : Prop where
  count : l.chunks.length = l.holes.length + 1
  chunks : ∀ chunk ∈ l.chunks, chunk.isChunk = true
  holes : ∀ hole ∈ l.holes, hole.WellFormed

/-- What a template evaluates to. -/
def value : Option Text := do
  let chunks ← l.chunks.mapM Text.cook
  let holes ← l.holes.mapM (·.literal.value)
  return alternate chunks holes

/-- What the program takes a template for. -/
def taken : Text :=
  alternate (l.chunks.map Text.unescape) (l.holes.map (·.literal.taken))

/-- Whether the program takes a template for its value by what is written there. -/
def isPlain : Bool :=
  l.chunks.all Text.isPlain && l.holes.all (·.literal.isPlain)

variable {l}

/-- The value of a plain template is what is taken over of it. -/
theorem value_of_isPlain (h : l.isPlain = true) : l.value = some l.taken := by
  have hmap {α : Type} {f : α → Option Text} {g : α → Text} {as : List α}
      (h : ∀ a ∈ as, f a = some (g a)) : as.mapM f = some (as.map g) := by
    induction as with
    | nil => rfl
    | cons a rest ih =>
      rw [List.forall_mem_cons] at h
      rw [List.mapM_cons, h.1, ih h.2]
      rfl
  rw [isPlain, Bool.and_eq_true, List.all_eq_true, List.all_eq_true] at h
  rw [value, hmap fun chunk hchunk => Text.cook_of_isPlain (h.1 chunk hchunk),
    hmap fun hole hhole => (hole.literal).value_of_isPlain (h.2 hole hhole)]
  rfl

end LiteralTemplate

/-! ### Templates of a module -/

/-- A text of white space is blank. -/
theorem Text.isBlank_of_isSpace {t : Text} (h : ∀ b ∈ t, b.isSpace = true) : t.isBlank = true := by
  induction t with
  | nil => exact isBlank_nil
  | cons b rest ih =>
    obtain ⟨hb, hrest⟩ := List.forall_mem_cons.mp h
    rw [isBlank, trimStart_of_isSpace hb]
    exact ih hrest

namespace Tree

variable {t : Tree}

/-- A hole that contributes a text was read from a literal that is taken for that text. -/
theorem hole_of_literalText {id : NodeId} {a : Ast} (hdepicts : t.Depicts id a) {text : Text}
    (hread : ReadFrom text a) {value : Text} (h : t.literalText id = some value) :
    ∃ hole : Hole, hole.WellFormed ∧ hole.text = text ∧ hole.literal.taken = value := by
  cases hdepicts with
  | node z hlt hkind hbelow =>
    rw [literalText, hkind] at h
    cases z with
    | str value' delimiter =>
      obtain rfl := Option.some.inj h
      obtain ⟨before, literal, after, hbefore, hafter, rfl, q, raw, rfl, hq, hbody, rfl⟩ :=
        hread.str rfl
      exact ⟨⟨before, .string q raw, after⟩,
        ⟨Text.isBlank_of_isSpace hbefore, ⟨hq, hbody⟩, Text.isBlank_of_isSpace hafter⟩, rfl, rfl⟩
    | fragment parts =>
      rcases parts with _ | ⟨⟨part, only⟩, _ | _⟩
      · exact absurd h (by simp [Kind.map])
      · have hpart : t.Depicts only part := hbelow (part, only) List.mem_cons_self
        cases hpart with
        | node z hlt honly _ =>
          simp only [Kind.map, List.map_cons, List.map_nil, honly] at h
          cases z with
          | code code =>
            dsimp only at h
            split at h
            case isTrue hdecimal =>
              obtain rfl := Option.some.inj h
              obtain ⟨before, after, hbefore, hafter, rfl⟩ := hread.code rfl rfl
              obtain ⟨lead, trail, hlead, htrail, hcode⟩ := Text.trim_parts code
              refine ⟨⟨before ++ lead, .number code.trim, trail ++ after⟩, ⟨?_, hdecimal, ?_⟩, ?_,
                rfl⟩
              · exact Text.isBlank_append_isBlank (Text.isBlank_of_isSpace hbefore) hlead
              · exact Text.isBlank_append_isBlank htrail (Text.isBlank_of_isSpace hafter)
              · conv_rhs => rw [hcode]
                simp only [Hole.text, Literal.text, List.append_assoc]
            case isFalse => exact absurd h (by simp)
          | _ => exact absurd h (by simp)
      · exact absurd h (by simp [Kind.map])
    | _ => exact absurd h (by simp [Kind.map])

/-- Where a template has static classes, its holes hold literals and the classes are the chunks
with what is taken over of those. -/
theorem holes_of_foldChunks {ids : List NodeId} {as : List Ast} {texts chunks : List Text}
    (hdepicts : List.Forall₂ t.Depicts ids as) (hread : List.Forall₂ ReadFrom texts as)
    {classes : Text} (hcount : chunks.length = ids.length + 1)
    (h : t.foldChunks chunks ids = some classes) :
    ∃ holes : List Hole, (∀ hole ∈ holes, hole.WellFormed) ∧ holes.map (·.text) = texts ∧
      classes = alternate (chunks.map Text.unescape) (holes.map (·.literal.taken)) := by
  induction hdepicts generalizing texts chunks classes with
  | nil =>
    obtain ⟨chunk, rfl⟩ := List.length_eq_one_iff.mp hcount
    cases hread
    obtain rfl := Option.some.inj h
    exact ⟨[], by simp, rfl, rfl⟩
  | @cons id a ids as hid _ ih =>
    obtain ⟨chunk, chunks, rfl⟩ := List.exists_cons_of_length_eq_add_one hcount
    cases hread with
    | @cons text _ texts _ htext hread =>
      simp only [foldChunks, Option.bind_eq_bind, Option.bind_eq_some_iff, Option.pure_def,
        Option.some.injEq] at h
      obtain ⟨value, hvalue, more, hmore, rfl⟩ := h
      obtain ⟨hole, hwell, rfl, rfl⟩ := hole_of_literalText hid htext hvalue
      obtain ⟨holes, hall, rfl, rfl⟩ := ih hread (by simpa using hcount) hmore
      exact ⟨hole :: holes, List.forall_mem_cons.mpr ⟨hwell, hall⟩, rfl, rfl⟩

end Tree

/-- A template of the tree is one that the source has where its place says. -/
def Ast.TemplateShown (src : Text) (a : Ast) : Prop :=
  ∀ tag chunks holes, a.kind = .template tag chunks holes →
    ∃ (lo tick : Nat) (parts : TemplateParts), a.span = some ⟨lo, parts.stop⟩ ∧
      src[tick]? = some Ascii.tick ∧ templateParts src tick = some parts ∧ chunks = parts.chunks ∧
      List.Forall₂ (fun s hole => ReadFrom (s.of src) hole) parts.holes holes

/-- What a template shows of the source holds as it is read. -/
theorem Read.holdsAsRead_templateShown (src : Text) : HoldsAsRead src (Ast.TemplateShown src) where
  code lo hi tag chunks holes hkind := nomatch hkind
  importing hfound tag chunks holes hkind :=
    absurd (form_importAt hfound) (by rw [hkind]; exact Form.noConfusion)
  template htick hparts hholes tag chunks holes hkind := by
    obtain ⟨rfl, rfl, rfl⟩ := Kind.template.inj hkind
    exact ⟨_, _, _, rfl, htick, hparts, rfl, hholes⟩
  other _ _ hk tag chunks holes hkind := absurd (congrArg Kind.form hkind) hk

namespace Tree

/-- **The class string of a template of a module** is what the literals in it are taken for.
They stand in the source where the template ends, and if they are plain, the class string is
the value of the template. -/
theorem static_classes_value {src : Text} {t : Tree} (ht : ofSource src = .ok t) {n : NodeId}
    {builder : Option Text} {classes : Text} (h : t.staticClasses n builder = some classes) :
    ∃ (l : LiteralTemplate) (tag : NodeId) (holes : List NodeId) (s : Span) (tick : Nat),
      l.WellFormed ∧ t.kind n = .template tag l.chunks holes ∧ t.span n = some s ∧
        src.slice tick s.hi = l.text ∧ classes = l.taken ∧
        (l.isPlain = true → l.value = some classes) := by
  obtain ⟨tag, chunks, holes, -, hkind, -, -, hfold⟩ := staticClasses_eq_some.mp h
  -- The node shows a template that was read, whose holes show what was read in them.
  have hform : t.form n = .template := congrArg Kind.form hkind
  obtain ⟨b, hdepicts, hshown⟩ := holds_of_read (Read.holdsAsRead_templateShown src) ht
    (lt_size_of_form (by rw [hform]; decide)) (by rw [hform]; decide)
  cases hdepicts with
  | node z hlt hz hbelow =>
    rw [hkind] at hz
    cases z with
    | template tag' chunks' holes' =>
      obtain ⟨rfl, rfl, rfl⟩ := Kind.template.inj hz
      obtain ⟨lo, tick, parts, hspan, htick, hparts, rfl, hread⟩ := hshown _ _ _ rfl
      have hcount := length_chunks_of_templateTail hparts
      have hlengths := hread.length_eq
      rw [List.length_map] at hlengths
      have hbelow' : List.Forall₂ t.Depicts (holes'.map Prod.snd) (holes'.map Prod.fst) :=
        List.forall₂_map_left_iff.mpr (List.forall₂_map_right_iff.mpr (List.forall₂_same.mpr
          fun p hp => hbelow p (List.mem_cons_of_mem _ hp)))
      obtain ⟨holes, hall, htexts, rfl⟩ := holes_of_foldChunks hbelow'
        (List.forall₂_map_left_iff.mpr hread) (by rw [hcount, List.length_map, hlengths]) hfold
      refine ⟨⟨parts.chunks, holes⟩, _, _, _, tick,
        ⟨?_, (templateTail_text hparts).chunks, hall⟩, hkind, hspan, ?_, rfl,
        LiteralTemplate.value_of_isPlain⟩
      · have hnumber := congrArg List.length htexts
        rw [List.length_map, List.length_map] at hnumber
        rw [hcount, ← hnumber]
      · rw [slice_template htick hparts, LiteralTemplate.text, htexts]
        rfl
    | _ => exact absurd hz (by simp [Kind.map])

/-- A template with a line break, a negative number and a quoted backslash. -/
def sampleTemplate : Text :=
  Text.ofString "a = tw\x60p\\n$\x7b -1.5 \x7d$\x7b'\\\\'\x7d\x60"

/-- The literals of the sample. -/
def sampleLiterals : LiteralTemplate where
  chunks := [Text.ofString "p\\n", [], []]
  holes := [⟨[space], .number (Text.ofString "-1.5"), [space]⟩,
    ⟨[], .string apostrophe [backslash, backslash], []⟩]

/-- The sample is made of well-formed literals. -/
theorem sampleLiterals_wellFormed : sampleLiterals.WellFormed where
  count := rfl
  chunks := by decide
  holes := by
    rw [sampleLiterals, List.forall_mem_cons, List.forall_mem_singleton]
    refine ⟨⟨?_, ?_, ?_⟩, ⟨?_, ⟨rfl, .escape _ .nil⟩, ?_⟩⟩
    · decide +kernel
    · show Text.isDecimal _ = true
      decide +kernel
    · decide +kernel
    · decide +kernel
    · decide +kernel

/-- With the chunks of the sample there are no other literals in its source. -/
theorem eq_sampleLiterals {l : LiteralTemplate} (hl : l.WellFormed) {pos : Nat}
    (hchunks : l.chunks = sampleLiterals.chunks) (htext : sampleTemplate.slice pos 27 = l.text) :
    l = sampleLiterals := by
  obtain ⟨chunks, holes⟩ := l
  obtain rfl : chunks = _ := hchunks
  obtain ⟨h₁, h₂, rfl⟩ : ∃ h₁ h₂, holes = [h₁, h₂] := by
    have hcount : 3 = holes.length + 1 := hl.count
    exact List.length_eq_two.mp (by omega)
  have htext : sampleTemplate.slice pos 27 = Text.ofString "\x60p\\n$\x7b" ++
      (h₁.text ++ (Text.ofString "\x7d$\x7b" ++ (h₂.text ++ Text.ofString "\x7d\x60"))) := by
    rw [htext, LiteralTemplate.text]
    simp [sampleLiterals, templateBody, Text.ofString]
    rfl
  -- The template begins at the one tick that its first chunk stands behind.
  have hpos : pos = 6 := by
    have hall : ∀ n < 27, Text.ofString "\x60p\\n$\x7b" <+: sampleTemplate.slice n 27 → n = 6 := by
      decide +kernel
    refine hall pos (Nat.lt_of_not_le fun hge => ?_) (htext ▸ List.prefix_append ..)
    rw [Text.slice, Nat.sub_eq_zero_of_le hge, List.take_zero] at htext
    exact List.append_ne_nil_of_left_ne_nil (by decide) _ htext.symm
  have hrest : Text.ofString " -1.5 \x7d$\x7b'\\\\'\x7d\x60" =
      h₁.text ++ (Text.ofString "\x7d$\x7b" ++ (h₂.text ++ Text.ofString "\x7d\x60")) := by
    subst hpos
    exact @List.append_cancel_left _ (Text.ofString "\x60p\\n$\x7b") _ _ htext
  -- What stands between its holes is found there once.
  have hlength : h₁.text.length = 6 := by
    have hall : ∀ n < 16, Text.ofString "\x7d$\x7b" <+:
        (Text.ofString " -1.5 \x7d$\x7b'\\\\'\x7d\x60").drop n → n = 6 := by
      decide +kernel
    refine hall _ ?_ ?_
    · have hsize := congrArg List.length hrest
      simp only [List.length_append] at hsize
      have hends : (Text.ofString "\x7d$\x7b").length = 3 ∧
          (Text.ofString " -1.5 \x7d$\x7b'\\\\'\x7d\x60").length = 15 := by decide
      omega
    · rw [hrest, List.drop_left]
      exact List.prefix_append ..
  obtain ⟨hfirst, hrest⟩ := @List.append_inj _ (Text.ofString " -1.5 ") _ _ _ hrest hlength.symm
  have hsecond : Text.ofString "'\\\\'" = h₂.text :=
    List.append_cancel_right (@List.append_cancel_left _ (Text.ofString "\x7d$\x7b") _ _ hrest)
  obtain ⟨hh₁, hh₂⟩ : h₁.WellFormed ∧ h₂.WellFormed := by simpa using hl.holes
  have hsample := sampleLiterals_wellFormed.holes
  rw [sampleLiterals, List.forall_mem_cons, List.forall_mem_singleton] at hsample
  rw [hh₁.eq_of_text hsample.1 (hfirst.symm.trans (by decide)),
    hh₂.eq_of_text hsample.2 (hsecond.symm.trans (by decide))]
  rfl

/-- The literals of the sample are plain, so its class string is its value. -/
theorem sampleTemplate_value :
    ∃ (t : Tree) (tag : NodeId) (holes : List NodeId) (tick : Nat),
      ofSource sampleTemplate = .ok t ∧
      t.staticClasses 6 (some (Text.ofString "tw")) = some (Text.ofString "p\n-1.5\\") ∧
      sampleLiterals.WellFormed ∧ t.kind 6 = .template tag sampleLiterals.chunks holes ∧
      t.span 6 = some ⟨4, 27⟩ ∧ sampleTemplate.slice tick 27 = sampleLiterals.text ∧
      Text.ofString "p\n-1.5\\" = sampleLiterals.taken ∧ sampleLiterals.isPlain = true ∧
      sampleLiterals.value = some (Text.ofString "p\n-1.5\\") := by
  have hrun : ((ofSource sampleTemplate).toOption.any fun t =>
      t.staticClasses 6 (some (Text.ofString "tw")) = some (Text.ofString "p\n-1.5\\") ∧
        t.kind 6 = .template 2 sampleLiterals.chunks [4, 5] ∧ t.span 6 = some ⟨4, 27⟩) = true := by
    decide +kernel
  obtain ⟨t, hread, hfacts⟩ := exists_of_any hrun
  obtain ⟨hstatic, hkind', hspan'⟩ := of_decide_eq_true hfacts
  obtain ⟨l, tag, holes, s, tick, hl, hkind, hspan, htext, htaken, hvalue⟩ :=
    static_classes_value hread hstatic
  obtain rfl : s = ⟨4, 27⟩ := Option.some.inj (hspan.symm.trans hspan')
  obtain ⟨-, hchunks, -⟩ := Kind.template.inj (hkind.symm.trans hkind')
  obtain rfl := eq_sampleLiterals hl hchunks htext
  have hplain : sampleLiterals.isPlain = true := by decide +kernel
  exact ⟨t, tag, holes, tick, hread, hstatic, hl, hkind, hspan, htext, htaken, hplain,
    hvalue hplain⟩

/-- Not every class string is the value that its template has: the program does not know the
escapes of characters by their numbers. -/
theorem not_always_value :
    ¬ ∀ (src : Text) (t : Tree) (n : NodeId) (builder : Option Text) (classes : Text)
      (l : LiteralTemplate) (tag : NodeId) (holes : List NodeId) (s : Span) (tick : Nat),
      ofSource src = .ok t → t.staticClasses n builder = some classes → l.WellFormed →
      t.kind n = .template tag l.chunks holes → t.span n = some s →
      src.slice tick s.hi = l.text → ∀ v, l.value = some v → v = classes := by
  intro h
  have hrun : ((ofSource (Text.ofString "tw\x60\\x41\x60")).toOption.any fun t =>
      t.staticClasses 2 (some (Text.ofString "tw")) = some (Text.ofString "x41") ∧
        t.kind 2 = .template 1 [Text.ofString "\\x41"] [] ∧ t.span 2 = some ⟨0, 8⟩) = true := by
    decide +kernel
  obtain ⟨t, hread, hfacts⟩ := exists_of_any hrun
  obtain ⟨hstatic, hkind, hspan⟩ := of_decide_eq_true hfacts
  have hvalue : (⟨[Text.ofString "\\x41"], []⟩ : LiteralTemplate).value =
      some (Text.ofString "A") := by decide +kernel
  have hsame := h _ t 2 _ _ ⟨[Text.ofString "\\x41"], []⟩ 1 [] _ 2 hread hstatic
    ⟨rfl, by decide, by simp⟩ hkind hspan (by decide) _ hvalue
  exact absurd hsame (by decide)

end Tree

end JsxStyle
