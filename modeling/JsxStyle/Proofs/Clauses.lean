import JsxStyle.Proofs.Trimming
import JsxStyle.Read.Import
import JsxStyle.Style.Import
import Mathlib.Data.List.Induction

/-!
# The clause of an import statement

A clause has a default binding, or specifiers between braces, or both, with white
space around each of them.  Taking it apart gives the bindings it was written with,
unless `type` stands in it as a name where it is taken for the modifier.

A clause without the bindings of one name is written out anew, from the bindings that
were read.  It is a clause of the same form again, whose specifiers are the others
without their modifiers.

* `Specifier.binding_text`: what is read of a specifier;
* `Clause.bindings_text`: what is read of a clause;
* `Clause.text_without`: how a clause without the bindings of one name is written.
-/

namespace JsxStyle

open Ascii

/-! ### Cutting at a word -/

namespace Text

/-- A word is not found where its first byte does not occur. -/
theorem splitOnce_of_not_mem {c : Byte} {word t : Text} (h : c ∉ t) :
    splitOnce (c :: word) t = none := by
  induction t with
  | nil => rfl
  | cons b rest ih =>
    rw [List.mem_cons, not_or] at h
    have hprefix : (c :: word).isPrefixOf (b :: rest) = false := by
      simp [List.isPrefixOf, h.1]
    rw [splitOnce, hprefix, ih h.2]
    rfl

/-- A word is found behind a text that its first byte is not in. -/
theorem splitOnce_append {c : Byte} {word before : Text} (h : c ∉ before) (after : Text) :
    splitOnce (c :: word) (before ++ (c :: word) ++ after) = some (before, after) := by
  induction before with
  | nil =>
    have hprefix : (c :: word).isPrefixOf (c :: (word ++ after)) = true :=
      List.isPrefixOf_iff_prefix.mpr ⟨after, rfl⟩
    rw [List.nil_append, List.cons_append, splitOnce, if_pos hprefix, List.length_cons,
      List.drop_succ_cons, List.drop_left]
  | cons b rest ih =>
    rw [List.mem_cons, not_or] at h
    have hprefix : (c :: word).isPrefixOf (b :: (rest ++ (c :: word) ++ after)) = false := by
      simp [List.isPrefixOf, h.1]
    rw [List.cons_append, List.cons_append, splitOnce, hprefix, ih h.2]
    rfl

/-- A word at the front is dropped. -/
theorem dropLead_append (word t : Text) : dropLead word (word ++ t) = t := by
  rw [dropLead, if_pos (List.isPrefixOf_iff_prefix.mpr ⟨t, rfl⟩), List.drop_left]

/-- A word at the end is dropped. -/
theorem dropTrail_append (word t : Text) : dropTrail word (t ++ word) = t := by
  rw [dropTrail, if_pos (List.isSuffixOf_iff_suffix.mpr ⟨t, rfl⟩), List.length_append,
    Nat.add_sub_cancel, List.take_left]

end Text

/-! ### Names and specifiers -/

/-- A byte that cannot be part of a name: it would end the name, or the clause. -/
def Byte.isClauseSign (b : Byte) : Bool :=
  [space, star, comma, openBrace, closeBrace, openParen, closeParen, semicolon, quote,
    apostrophe].contains b

/-- A name as it stands in a clause. -/
structure IsClauseName (t : Text) : Prop where
  trimmed : t.Trimmed
  plain : ∀ b ∈ t, b.isClauseSign = false

/-- The word between the two names of a specifier. -/
def asWord : Text :=
  Text.ofString " as "

/-- The word between a clause and the source. -/
def fromWord : Text :=
  Text.ofString "from"

/-- A specifier between the braces of a clause. -/
structure Specifier where
  typed : Bool
  imported : Text
  renamed : Option Text
deriving DecidableEq, Repr

namespace Specifier

variable (s : Specifier)

/-- The name it gives in the module. -/
def bound : Text :=
  s.renamed.getD s.imported

/-- What it binds: one name of the other module, under one name here. -/
def binding : Binding :=
  ⟨s.imported, s.bound⟩

/-- The names of a specifier as they are written. -/
def names : Text :=
  match s.renamed with
  | none => s.imported
  | some name => s.imported ++ asWord ++ name

/-- A specifier as it is written. -/
def text : Text :=
  if s.typed then Read.typeWord ++ s.names else s.names

/-- The specifier without a modifier, and without a second name that is the first. -/
def plain : Specifier :=
  ⟨false, s.imported, if s.renamed = some s.imported then none else s.renamed⟩

/-- Whether the names of a specifier are not taken for a modifier and a name. -/
def isClear : Bool :=
  !Read.typeWord.isPrefixOf s.names

/-- Names that can stand in a clause as they are. -/
structure WellFormed : Prop where
  imported : IsClauseName s.imported
  renamed : ∀ name ∈ s.renamed, IsClauseName name

end Specifier

/-- No sign of the clause is in a name. -/
theorem IsClauseName.not_mem {t : Text} (h : IsClauseName t) {b : Byte}
    (hb : b.isClauseSign = true) : b ∉ t :=
  fun hmem => Bool.false_ne_true ((h.plain b hmem).symm.trans hb)

/-- Identifiers are such names. -/
theorem isClauseName_of_isIdentifier {t : Text} (h : t.isIdentifier = true) : IsClauseName t := by
  have hbytes : ∀ b : Byte, b.isIdentChar = true →
      b.isClauseSign = false ∧ b.isAscii = true ∧ Text.isBlankByte b = false :=
    Scan.forall_byte (by decide +kernel)
  obtain ⟨b, rest, rfl, hb, hrest⟩ := Text.exists_of_isIdentifier h
  have hall : ∀ c ∈ b :: rest, c.isIdentChar = true :=
    List.forall_mem_cons.mpr ⟨Byte.isIdentChar_of_isIdentStart hb, hrest⟩
  obtain ⟨-, hascii, hblank⟩ := hbytes b (hall b List.mem_cons_self)
  refine ⟨⟨List.cons_ne_nil b rest, ?_, ?_⟩, fun c hc => (hbytes c (hall c hc)).1⟩
  · have hparted : Text.Parted [b] rest := Or.inl fun c hc => by
      obtain rfl : b = c := Option.some.inj hc
      exact hascii
    rw [← List.singleton_append, Text.leadingBlank_append (by simp) hparted, Text.leadingBlank,
      hblank]
    rfl
  · obtain ⟨before, last, hlast⟩ := List.eq_nil_or_concat (b :: rest) |>.resolve_left (by simp)
    rw [List.concat_eq_append] at hlast
    have hchar := hbytes last (hall last (by rw [hlast]; simp))
    rw [hlast, Text.trimEnd_concat before hchar.2.1 hchar.2.2]

/-- A sign of the clause, other than a space, is no part of white space. -/
theorem Text.sign_not_mem {t : Text} (h : t.isBlank = true) {b : Byte}
    (hb : b.isClauseSign = true) (hspace : b ≠ space) : b ∉ t := by
  have hsigns : ∀ b : Byte, b.isClauseSign = true → b ≠ space →
      Text.isBlankByte b = false ∧ b.isAscii = true :=
    Scan.forall_byte (by decide +kernel)
  obtain ⟨hblank, hascii⟩ := hsigns b hb hspace
  exact fun hmem => (Text.isBlankByte_of_mem h hmem).elim
    (fun h => Bool.false_ne_true (hblank.symm.trans h))
    fun h => Bool.false_ne_true (h.symm.trans hascii)

namespace Specifier

variable {s : Specifier}

/-- The word between two names stands between spaces. -/
theorem asWord_eq : asWord = [space, 0x61, 0x73, space] := by
  decide

/-- A text behind a word that ends in a byte of its own. -/
theorem parted_as (name : Text) : Text.Parted asWord name :=
  Or.inl fun b hb => by
    obtain rfl : space = b := Option.some.inj (by rw [← hb, asWord_eq]; rfl)
    rfl

/-- The names of a specifier begin and end with a name, not with white space. -/
theorem trimmed_names (h : s.WellFormed) : s.names.Trimmed := by
  cases hrenamed : s.renamed with
  | none =>
    simp only [names, hrenamed]
    exact h.imported.trimmed
  | some name =>
    have hname := (h.renamed name hrenamed).trimmed
    have hparted : Text.Parted s.imported (asWord ++ name) := Or.inr fun b hb => by
      rw [asWord_eq] at hb
      obtain rfl : space = b := Option.some.inj hb
      rfl
    simp only [names, hrenamed, List.append_assoc]
    exact Text.trimmed_append hparted h.imported.trimmed.ne_nil h.imported.trimmed.lead
      (List.append_ne_nil_of_right_ne_nil _ hname.ne_nil)
      (Text.trimEnd_append_self (parted_as name) hname.ne_nil hname.trail)

/-- A modifier in front of them changes nothing about that. -/
theorem trimmed_text (h : s.WellFormed) : s.text.Trimmed := by
  have hnames := trimmed_names h
  have hparted : Text.Parted Read.typeWord s.names := Or.inl fun b hb => by
    obtain rfl : space = b := Option.some.inj (by rw [← hb]; decide)
    rfl
  unfold text
  split
  · exact Text.trimmed_append hparted (by decide) (by decide) hnames.ne_nil hnames.trail
  · exact hnames

/-- What is read of a specifier is what it binds. -/
theorem binding_text (h : s.WellFormed) (hclear : s.isClear = true) {before after : Text}
    (hbefore : before.isBlank = true) (hafter : after.isBlank = true) :
    Read.binding? (before ++ s.text ++ after) = some s.binding := by
  have hnames : Text.dropLead Read.typeWord s.text = s.names := by
    unfold text
    split
    · exact Text.dropLead_append ..
    · have hlead : Read.typeWord.isPrefixOf s.names = false := by simpa [isClear] using hclear
      rw [Text.dropLead, hlead]
      rfl
  have hne : s.names.isEmpty = false := by
    rw [List.isEmpty_eq_false_iff]
    exact (trimmed_names h).ne_nil
  have hspace : space ∉ s.imported := h.imported.not_mem rfl
  unfold Read.binding?
  simp only [(trimmed_text h).trim_eq hbefore hafter, hnames, hne]
  rw [if_neg Bool.false_ne_true, show Text.ofString " as " = asWord from rfl]
  cases hrenamed : s.renamed with
  | none =>
    have hsplit : Text.splitOnce asWord s.imported = none := by
      rw [asWord_eq]
      exact Text.splitOnce_of_not_mem hspace
    simp only [names, binding, bound, hrenamed, hsplit, Option.getD_none]
  | some name =>
    have hsplit : Text.splitOnce asWord (s.imported ++ asWord ++ name) =
        some (s.imported, name) := by
      rw [asWord_eq]
      exact Text.splitOnce_append hspace name
    simp only [names, binding, bound, hrenamed, hsplit, Option.getD_some,
      h.imported.trimmed.trim_self, (h.renamed name hrenamed).trimmed.trim_self]

/-- Without its modifier a specifier gives the same name. -/
theorem bound_plain (s : Specifier) : s.plain.bound = s.bound := by
  unfold plain bound
  split <;> simp_all

/-- Without its modifier a specifier is written with the same names. -/
theorem wellFormed_plain (h : s.WellFormed) : s.plain.WellFormed where
  imported := h.imported
  renamed name hname := by
    unfold plain at hname
    split at hname
    · exact absurd hname (by simp)
    · exact h.renamed name hname

/-- Nothing is taken for a modifier in what is left. -/
theorem isClear_plain (h : s.WellFormed) (hclear : s.isClear = true) : s.plain.isClear = true := by
  by_cases hsame : s.renamed = some s.imported
  · have hlead : Read.typeWord.isPrefixOf s.imported = false := by
      refine Bool.eq_false_iff.mpr fun htype => h.imported.not_mem (b := space) rfl ?_
      exact (List.isPrefixOf_iff_prefix.mp htype).subset (by decide)
    simp only [isClear, names, plain, if_pos hsame, hlead, Bool.not_false]
  · simpa only [isClear, names, plain, if_neg hsame] using hclear

/-- A binding is written as its specifier without a modifier. -/
theorem render_binding (s : Specifier) : s.binding.render = s.plain.text := by
  unfold Binding.render binding plain text names bound
  cases s.renamed with
  | none => simp
  | some name =>
    by_cases hsame : name = s.imported
    · simp [hsame]
    · simp [hsame, Ne.symm hsame, asWord]

/-- A specifier without a modifier, whose second name is not its first, stays as it is. -/
theorem plain_eq_self (htyped : s.typed = false) (hrenamed : s.renamed ≠ some s.imported) :
    s.plain = s := by
  rw [plain, if_neg hrenamed, ← htyped]

/-- The only signs of the clause in a specifier are spaces. -/
theorem sign_not_mem_text (h : s.WellFormed) {b : Byte} (hb : b.isClauseSign = true)
    (hspace : b ≠ space) : b ∉ s.text := by
  have hwords : ∀ b : Byte, b.isClauseSign = true → b ≠ space →
      b ∉ Read.typeWord ∧ b ∉ asWord :=
    Scan.forall_byte (by decide +kernel)
  obtain ⟨htype, has⟩ := hwords b hb hspace
  have hnames : b ∉ s.names := by
    cases hrenamed : s.renamed with
    | none => simpa only [names, hrenamed] using h.imported.not_mem hb
    | some name =>
      simp only [names, hrenamed, List.mem_append, not_or]
      exact ⟨⟨h.imported.not_mem hb, has⟩, (h.renamed name hrenamed).not_mem hb⟩
  unfold text
  split
  · exact fun hmem => (List.mem_append.mp hmem).elim htype hnames
  · exact hnames

end Specifier

/-! ### Clauses -/

/-- What stands between two commas of a clause. -/
structure ClauseEntry where
  before : Text
  specifier : Option Specifier
  after : Text
deriving DecidableEq, Repr

namespace ClauseEntry

/-- An entry as it is written. -/
def text (e : ClauseEntry) : Text :=
  e.before ++ (e.specifier.map (·.text)).getD [] ++ e.after

/-- White space around a specifier that is well formed, or white space alone. -/
structure WellFormed (e : ClauseEntry) : Prop where
  before : e.before.isBlank = true
  specifier : ∀ s ∈ e.specifier, s.WellFormed
  after : e.after.isBlank = true

/-- What is read of an entry is what its specifier binds. -/
theorem binding_text {e : ClauseEntry} (h : e.WellFormed)
    (hclear : ∀ s ∈ e.specifier, s.isClear = true) :
    Read.binding? e.text = e.specifier.map (·.binding) := by
  unfold text
  cases hspecifier : e.specifier with
  | none =>
    have hblank : (e.before ++ e.after).trim = [] :=
      Text.trim_of_isBlank (Text.isBlank_append_isBlank h.before h.after)
    simp only [Option.map_none, Option.getD_none, List.append_nil, Read.binding?, hblank]
    rfl
  | some s =>
    exact s.binding_text (h.specifier s hspecifier) (hclear s hspecifier) h.before h.after

/-- The only signs of the clause in an entry are spaces. -/
theorem sign_not_mem_text {e : ClauseEntry} (h : e.WellFormed) {b : Byte}
    (hb : b.isClauseSign = true) (hspace : b ≠ space) : b ∉ e.text := by
  have hspecifier : b ∉ (e.specifier.map (·.text)).getD [] := by
    cases hspecifier : e.specifier with
    | none => exact List.not_mem_nil
    | some s => exact s.sign_not_mem_text (h.specifier s hspecifier) hb hspace
  simp only [text, List.mem_append, not_or]
  exact ⟨⟨Text.sign_not_mem h.before hb hspace, hspecifier⟩, Text.sign_not_mem h.after hb hspace⟩

end ClauseEntry

/-- A clause as it is written: with a default binding, or with entries between braces, or both. -/
structure Clause where
  before : Text
  default? : Option Text
  /-- What is between the default binding and the comma behind it. -/
  gap : Text
  /-- What is between that comma and the brace. -/
  middle : Text
  entries? : Option (List ClauseEntry)
  after : Text
deriving DecidableEq, Repr

namespace Clause

variable (c : Clause)

/-- Entries between their braces. -/
def braced (entries : List ClauseEntry) : Text :=
  openBrace :: (Text.join [comma] (entries.map (·.text)) ++ [closeBrace])

/-- A clause without the white space around it. -/
def body : Text :=
  match c.default?, c.entries? with
  | some name, some entries => name ++ c.gap ++ comma :: (c.middle ++ braced entries)
  | some name, none => name
  | none, some entries => braced entries
  | none, none => []

/-- A clause as it is written. -/
def text : Text :=
  c.before ++ c.body ++ c.after

/-- The specifiers between its braces. -/
def specifiers : List Specifier :=
  (c.entries?.getD []).filterMap (·.specifier)

/-- What a clause binds, the default binding first. -/
def bindings : List Binding :=
  c.specifiers.map (·.binding)

/-- White space where white space may stand, and names where names do. -/
structure WellFormed : Prop where
  before : c.before.isBlank = true
  default : ∀ name ∈ c.default?, IsClauseName name
  gap : c.gap.isBlank = true
  middle : c.middle.isBlank = true
  entries : ∀ entries ∈ c.entries?, ∀ e ∈ entries, e.WellFormed
  after : c.after.isBlank = true
  binds : c.default?.isSome = true ∨ c.entries?.isSome = true

/-- Whether nothing in a clause is taken for a modifier that is none. -/
def isClear : Bool :=
  !Read.typeWord.isPrefixOf c.body && c.specifiers.all (·.isClear)

variable {c}

/-- The entries between the braces of a clause come apart again. -/
theorem entries_text {entries : List ClauseEntry} (h : ∀ e ∈ entries, e.WellFormed)
    (hclear : ∀ s ∈ entries.filterMap (·.specifier), s.isClear = true) :
    (Text.pieces comma (((braced entries).drop 1).takeWhile (· != closeBrace))).filterMap
        Read.binding? =
      (entries.filterMap (·.specifier)).map (·.binding) := by
  have hparts {b : Byte} (hb : b.isClauseSign = true) (hspace : b ≠ space) :
      ∀ part ∈ entries.map (·.text), b ∉ part := by
    intro part hpart
    obtain ⟨e, he, rfl⟩ := List.mem_map.mp hpart
    exact ClauseEntry.sign_not_mem_text (h e he) hb hspace
  have hinside : ((braced entries).drop 1).takeWhile (· != closeBrace) =
      Text.join [comma] (entries.map (·.text)) := by
    refine Scan.takeWhile_append_stop (fun b hb => bne_iff_ne.mpr ?_) (by simp)
    rintro rfl
    rcases Text.mem_join hb with hsep | ⟨part, hpart, hmem⟩
    · exact absurd hsep (by decide)
    · exact hparts (b := closeBrace) rfl (by decide) part hpart hmem
  rw [hinside]
  cases hentries : entries with
  | nil =>
    have hnone : Read.binding? [] = none :=
      ClauseEntry.binding_text (e := ⟨[], none, []⟩) ⟨Text.isBlank_nil, by simp, Text.isBlank_nil⟩
        (by simp)
    rw [List.map_nil, show Text.join [comma] [] = [] from rfl, Text.pieces, List.filterMap_cons,
      hnone]
    rfl
  | cons e rest =>
    rw [Text.pieces_join (by simp) (hentries ▸ hparts rfl (by decide)), List.filterMap_map,
      List.map_filterMap]
    refine List.filterMap_congr fun e he => ?_
    rw [← hentries] at he
    exact ClauseEntry.binding_text (h e he) fun s hs =>
      hclear s (List.mem_filterMap.mpr ⟨e, he, hs⟩)

/-- What ends with a brace ends with no white space. -/
theorem trimEnd_braced (u : Text) (entries : List ClauseEntry) :
    Text.trimEnd (u ++ braced entries) = u ++ braced entries := by
  have hlast : u ++ braced entries =
      (u ++ openBrace :: Text.join [comma] (entries.map (·.text))) ++ [closeBrace] := by
    simp [braced]
  rw [hlast, Text.trimEnd_concat _ rfl rfl]

/-- A clause without the white space around it has none at its ends. -/
theorem trimmed_body (h : c.WellFormed) : c.body.Trimmed := by
  have hbinds := h.binds
  unfold body
  cases hdefault : c.default? with
  | none =>
    cases hentries : c.entries? with
    | none => simp [hdefault, hentries] at hbinds
    | some entries =>
      have hparted : Text.Parted [openBrace]
          (Text.join [comma] (entries.map (·.text)) ++ [closeBrace]) :=
        Or.inl fun b hb => by
          obtain rfl : openBrace = b := Option.some.inj hb
          rfl
      exact Text.trimmed_append hparted (by simp) (by decide) (by simp)
        (Text.trimEnd_concat _ rfl rfl)
  | some name =>
    have hname := (h.default name hdefault).trimmed
    cases c.entries? with
    | none => exact hname
    | some entries =>
      have hparted : Text.Parted name (c.gap ++ comma :: (c.middle ++ braced entries)) :=
        Text.Parted.behind_blank (Or.inr fun b hb => by
          obtain rfl : comma = b := Option.some.inj hb
          rfl) h.gap
      have htrail := trimEnd_braced (c.gap ++ comma :: c.middle) entries
      rw [List.append_assoc] at htrail
      simp only [List.append_assoc]
      exact Text.trimmed_append hparted hname.ne_nil hname.lead (by simp) htrail

/-- The words around a clause go with the white space. -/
theorem clauseProper_text (h : c.WellFormed) (hclear : c.isClear = true) {gap : Text}
    (hgap : gap.isBlank = true) :
    Read.clauseProper (c.text ++ fromWord ++ gap) = c.body := by
  have hbody := trimmed_body h
  have hfrom (p : Text) : Text.Parted p fromWord := Or.inr fun b hb => by
    obtain rfl : (0x66 : Byte) = b := Option.some.inj (by rw [← hb]; decide)
    rfl
  have hwhole : (c.body ++ (c.after ++ fromWord)).Trimmed :=
    Text.trimmed_append ((hfrom _).behind_blank h.after) hbody.ne_nil hbody.lead
      (List.append_ne_nil_of_right_ne_nil _ (by decide))
      (Text.trimEnd_append_self (hfrom _) (by decide) (by decide +kernel))
  have htext : c.text ++ fromWord ++ gap =
      c.before ++ (c.body ++ (c.after ++ fromWord)) ++ gap := by
    simp [text]
  have hafter : (c.body ++ c.after).trim = c.body := by
    simpa using hbody.trim_eq Text.isBlank_nil h.after
  have hlead : Read.typeWord.isPrefixOf c.body = false := by
    simp only [isClear, Bool.and_eq_true, Bool.not_eq_true'] at hclear
    exact hclear.1
  rw [Read.clauseProper, htext, hwhole.trim_eq h.before hgap, ← List.append_assoc,
    show Text.ofString "from" = fromWord from rfl, Text.dropTrail_append, hafter, Text.dropLead,
    hlead]
  rfl

/-- What is read in front of the braces and between them. -/
theorem clauseBindings_braced {lead : Text} (hlead : openBrace ∉ lead) {entries : List ClauseEntry}
    (h : ∀ e ∈ entries, e.WellFormed)
    (hclear : ∀ s ∈ entries.filterMap (·.specifier), s.isClear = true) :
    Read.clauseBindings (lead ++ braced entries) =
      (Read.defaultBinding? lead, (entries.filterMap (·.specifier)).map (·.binding)) := by
  have hnone : lead.findIdx? (· == openBrace) = none :=
    List.findIdx?_eq_none_iff.mpr fun b hb => beq_eq_false_iff_ne.mpr fun heq => hlead (heq ▸ hb)
  have hfound : (lead ++ braced entries).findIdx? (· == openBrace) = some lead.length := by
    simp [List.findIdx?_append, hnone, braced, List.findIdx?_cons]
  have hdrop : (lead ++ braced entries).drop (lead.length + 1) = (braced entries).drop 1 := by
    rw [← List.drop_drop, List.drop_left]
  rw [Read.clauseBindings, hfound]
  simp only [hdrop, List.take_left, entries_text h hclear]

/-- The default binding is the name in front of the comma, or in front of nothing. -/
theorem defaultBinding_name {name gap : Text} (hname : IsClauseName name)
    (hgap : gap.isBlank = true) {others : List Text} {lead : Text}
    (hpieces : Text.pieces comma lead = (name ++ gap) :: others) :
    Read.defaultBinding? lead = some name := by
  have htrim : (name ++ gap).trim = name := by
    simpa using hname.trimmed.trim_eq Text.isBlank_nil hgap
  have hhead : name.head? ≠ some star := fun hstar =>
    hname.not_mem (b := star) rfl (List.mem_of_head? hstar)
  rw [Read.defaultBinding?, hpieces, List.map_cons, htrim]
  exact List.find?_cons_of_pos (by simp [hname.trimmed.ne_nil, hhead])

/-- **What is read of a clause** is what it was written with. -/
theorem bindings_text (h : c.WellFormed) (hclear : c.isClear = true) {gap : Text}
    (hgap : gap.isBlank = true) :
    Read.clauseBindings (Read.clauseProper (c.text ++ fromWord ++ gap)) =
      (c.default?, c.bindings) := by
  rw [clauseProper_text h hclear hgap]
  have hspecifiers : ∀ s ∈ (c.entries?.getD []).filterMap (·.specifier), s.isClear = true :=
    List.all_eq_true.mp (Bool.and_eq_true_iff.mp hclear).2
  have hentries : ∀ e ∈ c.entries?.getD [], e.WellFormed := by
    cases he : c.entries? with
    | none => simp
    | some entries => exact h.entries entries he
  have hbinds := h.binds
  unfold body bindings specifiers
  cases hdefault : c.default? with
  | none =>
    cases he : c.entries? with
    | none => simp [hdefault, he] at hbinds
    | some entries =>
      rw [he] at hspecifiers hentries
      have hnone : Read.defaultBinding? [] = none := by
        rw [Read.defaultBinding?, Text.pieces, List.map_singleton,
          Text.trim_of_isBlank Text.isBlank_nil]
        rfl
      have hlead : openBrace ∉ ([] : Text) := List.not_mem_nil
      have hread := clauseBindings_braced hlead hentries hspecifiers
      rw [hnone] at hread
      exact hread
  | some name =>
    have hname := h.default name hdefault
    cases he : c.entries? with
    | none =>
      have hfind : name.findIdx? (· == openBrace) = none :=
        List.findIdx?_eq_none_iff.mpr fun b hb => beq_eq_false_iff_ne.mpr fun heq =>
          hname.not_mem (b := openBrace) rfl (heq ▸ hb)
      have hpieces : Text.pieces comma name = [name ++ []] := by
        rw [List.append_nil]
        exact Text.pieces_of_not_mem (hname.not_mem rfl)
      simp only [Read.clauseBindings, hfind, defaultBinding_name hname Text.isBlank_nil hpieces]
      rfl
    | some entries =>
      rw [he] at hspecifiers hentries
      have hlead {b : Byte} (hb : b.isClauseSign = true) (hspace : b ≠ space) :
          b ∉ name ++ c.gap := fun hmem =>
        (List.mem_append.mp hmem).elim (hname.not_mem hb) (Text.sign_not_mem h.gap hb hspace)
      have hmiddle {b : Byte} (hb : b.isClauseSign = true) (hspace : b ≠ space) : b ∉ c.middle :=
        Text.sign_not_mem h.middle hb hspace
      have hpieces : Text.pieces comma (name ++ c.gap ++ comma :: c.middle) =
          (name ++ c.gap) :: Text.pieces comma c.middle := by
        rw [Text.pieces_append, Text.pieces_of_not_mem (hlead rfl (by decide))]
        rfl
      have hfront : openBrace ∉ name ++ c.gap ++ comma :: c.middle := by
        rw [List.mem_append, List.mem_cons, not_or, not_or]
        exact ⟨hlead rfl (by decide), by decide, hmiddle rfl (by decide)⟩
      have hread := clauseBindings_braced hfront hentries hspecifiers
      rw [defaultBinding_name hname h.gap hpieces, List.append_assoc] at hread
      exact hread

/-- Nothing that ends the search for the source is in a clause. -/
theorem sign_not_mem_clause (h : c.WellFormed) {b : Byte}
    (hb : b ∈ [openParen, semicolon, quote, apostrophe]) : b ∉ c.text := by
  have hsigns : ∀ b : Byte, b ∈ [openParen, semicolon, quote, apostrophe] →
      b.isClauseSign = true ∧ b ≠ space ∧ b ∉ [comma] ∧ b ≠ openBrace ∧ b ≠ closeBrace ∧
        b ≠ comma :=
    Scan.forall_byte (by decide +kernel)
  obtain ⟨hsign, hspace, hjoin, hopen, hclose, hcomma⟩ := hsigns b hb
  have hbraced {entries : List ClauseEntry} (he : ∀ e ∈ entries, e.WellFormed) :
      b ∉ braced entries := by
    have hinside : b ∉ Text.join [comma] (entries.map (·.text)) := fun hmem => by
      rcases Text.mem_join hmem with hsep | ⟨part, hpart, hmem⟩
      · exact hjoin hsep
      · obtain ⟨e, hentry, rfl⟩ := List.mem_map.mp hpart
        exact ClauseEntry.sign_not_mem_text (he e hentry) hsign hspace hmem
    simp only [braced, List.mem_cons, List.mem_append, List.not_mem_nil, or_false, not_or]
    exact ⟨hopen, hinside, hclose⟩
  have hbody : b ∉ c.body := by
    unfold body
    cases hdefault : c.default? with
    | none =>
      cases he : c.entries? with
      | none => exact List.not_mem_nil
      | some entries => exact hbraced (h.entries entries he)
    | some name =>
      have hname := (h.default name hdefault).not_mem hsign
      cases he : c.entries? with
      | none => exact hname
      | some entries =>
        simp only [List.mem_append, List.mem_cons, not_or]
        exact ⟨⟨hname, Text.sign_not_mem h.gap hsign hspace⟩, hcomma,
          Text.sign_not_mem h.middle hsign hspace, hbraced (h.entries entries he)⟩
  simp only [text, List.mem_append, not_or]
  exact ⟨⟨Text.sign_not_mem h.before hsign hspace, hbody⟩, Text.sign_not_mem h.after hsign hspace⟩

/-! ### A clause without the bindings of one name -/

/-- Specifiers with a space in front of each and behind the last. -/
def spread : List Specifier → List ClauseEntry
  | [] => []
  | [s] => [⟨[space], some s, [space]⟩]
  | s :: next :: rest => ⟨[space], some s, []⟩ :: spread (next :: rest)

/-- Specifiers between braces, if there are any. -/
def enclosed (ss : List Specifier) : Option (List ClauseEntry) :=
  if ss = [] then none else some (spread ss)

/-- The clause without the bindings of `name`, as it is written anew. -/
def without (c : Clause) (name : Text) : Clause where
  before := [space]
  default? := c.default?.filter (· ≠ name)
  gap := []
  middle := [space]
  entries? := enclosed ((c.specifiers.filter (·.bound ≠ name)).map Specifier.plain)
  after := [space]

/-- A space is white space. -/
theorem isBlank_space : Text.isBlank [space] = true := by
  decide +kernel

/-- The entries that specifiers are spread over hold these specifiers. -/
theorem specifier_spread (ss : List Specifier) : (spread ss).filterMap (·.specifier) = ss := by
  induction ss using List.twoStepInduction with
  | nil => rfl
  | singleton s => rfl
  | cons_cons s next rest _ ih => exact congrArg (s :: ·) (ih next)

/-- The entries between the braces, if there are any, hold these specifiers. -/
theorem specifier_enclosed (ss : List Specifier) :
    ((enclosed ss).getD []).filterMap (·.specifier) = ss := by
  unfold enclosed
  split
  case isTrue hnone =>
    rw [hnone]
    rfl
  case isFalse => exact specifier_spread ss

/-- Specifiers that are well formed make entries that are. -/
theorem wellFormed_spread {ss : List Specifier} (h : ∀ s ∈ ss, s.WellFormed) :
    ∀ e ∈ spread ss, e.WellFormed := by
  have hself {s : Specifier} (hs : s.WellFormed) : ∀ s' ∈ some s, s'.WellFormed := by
    rintro _ ⟨⟩
    exact hs
  induction ss using List.twoStepInduction with
  | nil => simp [spread]
  | singleton s =>
    exact List.forall_mem_singleton.mpr
      ⟨isBlank_space, hself (h s List.mem_cons_self), isBlank_space⟩
  | cons_cons s next rest _ ih =>
    obtain ⟨hs, hrest⟩ := List.forall_mem_cons.mp h
    exact List.forall_mem_cons.mpr ⟨⟨isBlank_space, hself hs, Text.isBlank_nil⟩, ih next hrest⟩

/-- Spread over entries, specifiers are written with a space around them and behind each comma. -/
theorem text_spread {ss : List Specifier} (hne : ss ≠ []) :
    Text.join [comma] ((spread ss).map (·.text)) =
      [space] ++ Text.join [comma, space] (ss.map (·.text)) ++ [space] := by
  induction ss using List.twoStepInduction with
  | nil => exact absurd rfl hne
  | singleton s => simp [spread, Text.join, ClauseEntry.text]
  | cons_cons s next rest _ ih =>
    have hrest := ih next (List.cons_ne_nil next rest)
    obtain ⟨e, entries, he⟩ : ∃ e entries, spread (next :: rest) = e :: entries := by
      cases rest <;> exact ⟨_, _, rfl⟩
    rw [he, List.map_cons] at hrest
    calc Text.join [comma]
            (((⟨[space], some s, []⟩ : ClauseEntry) :: spread (next :: rest)).map (·.text))
        = [space] ++ s.text ++ [comma] ++ Text.join [comma] (e.text :: entries.map (·.text)) := by
          simp [he, Text.join, ClauseEntry.text]
      _ = [space] ++ Text.join [comma, space] ((s :: next :: rest).map (·.text)) ++ [space] := by
          rw [hrest]
          simp [Text.join]

variable {name : Text}

/-- A clause without the bindings of a name has the other specifiers, without their modifiers. -/
theorem specifiers_without (c : Clause) (name : Text) :
    (c.without name).specifiers = (c.specifiers.filter (·.bound ≠ name)).map Specifier.plain :=
  specifier_enclosed _

/-- The clause binds what it did, apart from `name`. -/
theorem bindings_without (c : Clause) (name : Text) :
    (c.without name).bindings = c.bindings.filter (·.bound ≠ name) := by
  have hsame (s : Specifier) : s.plain.binding = s.binding :=
    congrArg (Binding.mk s.imported) s.bound_plain
  rw [bindings, specifiers_without, List.map_map, bindings, List.filter_map]
  exact List.map_congr_left fun s _ => hsame s

/-- The specifiers of a clause that is well formed are well formed. -/
theorem wellFormed_specifiers (h : c.WellFormed) : ∀ s ∈ c.specifiers, s.WellFormed := by
  intro s hs
  obtain ⟨e, he, hspecifier⟩ := List.mem_filterMap.mp hs
  cases hentries : c.entries? with
  | none => simp [hentries] at he
  | some entries =>
    rw [hentries] at he
    exact (h.entries entries hentries e he).specifier s hspecifier

/-- What is left of a clause was in it, but for modifiers. -/
theorem plain_mem_without {p : Specifier} (hp : p ∈ (c.without name).specifiers) :
    ∃ s ∈ c.specifiers, p = s.plain := by
  rw [specifiers_without] at hp
  obtain ⟨s, hs, rfl⟩ := List.mem_map.mp hp
  exact ⟨s, List.mem_of_mem_filter hs, rfl⟩

/-- A clause that still binds something is well formed without the bindings of a name. -/
theorem wellFormed_without (h : c.WellFormed)
    (hbinds : (c.without name).default?.isSome = true ∨ (c.without name).bindings ≠ []) :
    (c.without name).WellFormed where
  before := isBlank_space
  default n hn := h.default n (Option.mem_filter_iff.mp hn).1
  gap := Text.isBlank_nil
  middle := isBlank_space
  entries entries he := by
    simp only [without, enclosed] at he
    split at he
    · exact absurd he (by simp)
    · obtain rfl := Option.some.inj he
      refine wellFormed_spread fun p hp => ?_
      obtain ⟨s, hs, rfl⟩ := plain_mem_without (specifiers_without c name ▸ hp)
      exact Specifier.wellFormed_plain (wellFormed_specifiers h s hs)
  after := isBlank_space
  binds := hbinds.imp_right fun hne => by
    cases he : (c.without name).entries? with
    | none => exact absurd (by rw [bindings, specifiers, he]; rfl) hne
    | some entries => rfl

/-- No modifier is found where a name ends at a comma, or at the end. -/
theorem not_typed_name {n : Text} (h : IsClauseName n) (rest : Text) :
    Read.typeWord.isPrefixOf (n ++ comma :: rest) = false ∧ Read.typeWord.isPrefixOf n = false := by
  have hnot : ¬ Read.typeWord <+: n := fun htype =>
    h.not_mem (b := space) rfl (htype.subset (by decide))
  refine ⟨Bool.eq_false_iff.mpr fun htype => ?_, Bool.eq_false_iff.mpr fun htype =>
    hnot (List.isPrefixOf_iff_prefix.mp htype)⟩
  have hcomma : n ++ [comma] <+: n ++ comma :: rest := ⟨rest, by simp⟩
  rcases List.prefix_or_prefix_of_prefix (List.isPrefixOf_iff_prefix.mp htype) hcomma with h | h
  · rcases List.prefix_concat_iff.mp h with heq | htype
    · exact absurd (congrArg List.getLast? heq) (by simp; decide)
    · exact hnot htype
  · exact absurd (h.subset (a := comma) (by simp)) (by decide)

/-- Taking bindings out makes nothing ambiguous. -/
theorem isClear_without (h : c.WellFormed) (hclear : c.isClear = true) :
    (c.without name).isClear = true := by
  have hspecifiers : (c.without name).specifiers.all (·.isClear) = true := by
    refine List.all_eq_true.mpr fun p hp => ?_
    obtain ⟨s, hs, rfl⟩ := plain_mem_without hp
    exact Specifier.isClear_plain (wellFormed_specifiers h s hs)
      (List.all_eq_true.mp (Bool.and_eq_true_iff.mp hclear).2 s hs)
  have hlead : Read.typeWord.isPrefixOf (c.without name).body = false := by
    have hdefault : ∀ n ∈ (c.without name).default?, IsClauseName n := fun n hn =>
      h.default n (Option.mem_filter_iff.mp hn).1
    have hgap : (c.without name).gap = [] := rfl
    unfold body
    cases hn : (c.without name).default? with
    | none =>
      cases (c.without name).entries? with
      | none => rfl
      | some entries => rfl
    | some n =>
      cases (c.without name).entries? with
      | none => exact (not_typed_name (hdefault n hn) []).2
      | some entries =>
        simp only [hgap, List.append_nil]
        exact (not_typed_name (hdefault n hn) _).1
  rw [isClear, hlead, hspecifiers]
  rfl

/-- The clause stands where the statement is written anew. -/
theorem text_without (c : Clause) (name : Text) :
    (c.without name).text =
      [space] ++ renderClause (c.default?.filter (· ≠ name)) (c.bindings.filter (·.bound ≠ name)) ++
        [space] := by
  have hkept : c.bindings.filter (·.bound ≠ name) =
      (c.specifiers.filter (·.bound ≠ name)).map (·.binding) := by
    rw [bindings, List.filter_map]
    rfl
  rw [hkept]
  generalize hss : c.specifiers.filter (·.bound ≠ name) = ss
  have hbody : (c.without name).body =
      renderClause (c.default?.filter (· ≠ name)) (ss.map (·.binding)) := by
    have hentries : (c.without name).entries? = enclosed (ss.map Specifier.plain) := by
      rw [without, hss]
    have hdefault : (c.without name).default? = c.default?.filter (· ≠ name) := rfl
    have hgaps : (c.without name).gap = [] ∧ (c.without name).middle = [space] := ⟨rfl, rfl⟩
    rw [body, hentries, hdefault, hgaps.1, hgaps.2]
    generalize c.default?.filter (· ≠ name) = default?
    cases ss with
    | nil =>
      cases default? with
      | none => rfl
      | some n => simp [enclosed, renderClause, Text.join]
    | cons s rest =>
      have hbraced : braced (spread ((s :: rest).map Specifier.plain)) =
          Text.ofString "\x7b " ++
            Text.join (Text.ofString ", ") (((s :: rest).map (·.binding)).map Binding.render) ++
            Text.ofString " \x7d" := by
        have hrender : ((s :: rest).map (·.binding)).map Binding.render =
            ((s :: rest).map Specifier.plain).map (·.text) := by
          rw [List.map_map, List.map_map]
          exact List.map_congr_left fun s _ => s.render_binding
        rw [hrender, braced, text_spread (by simp)]
        simp [show Text.ofString "\x7b " = [openBrace, space] by decide,
          show Text.ofString " \x7d" = [space, closeBrace] by decide,
          show Text.ofString ", " = [comma, space] by decide]
      have henclosed : enclosed ((s :: rest).map Specifier.plain) =
          some (spread ((s :: rest).map Specifier.plain)) :=
        if_neg (List.cons_ne_nil _ _)
      rw [henclosed]
      unfold renderClause
      rw [← hbraced]
      cases default? with
      | none => simp [Text.join]
      | some n => simp [Text.join, show Text.ofString ", " = [comma, space] by decide]
  rw [text, hbody]
  rfl

end Clause

end JsxStyle
