import JsxStyle.Proofs.Clauses
import JsxStyle.Proofs.Verbatim

/-!
# Import statements that are written anew

An import statement is a word, a clause, the source as a string, and what ends the
statement.  A text that is put together so is read as an import statement that fills
it, whatever the clause.

When the bindings of one name go, the statement is written anew around its source.  It
is read again as one import from the same source, with the other bindings.  Its clause
has their specifiers without modifiers: where a type was imported, a value is now.

* `Read.parts_of_importAt`, `Read.program_import`: the parts of a statement, there
  and back;
* `Tree.import_without`: what is read where the bindings of one name are gone;
* `Tree.not_always_as_written`: a specifier that has lost its modifier.
-/

namespace JsxStyle

open Ascii Scan

/-- What may stand behind the source of an import statement: blanks, a semicolon, and
the end of the line. -/
structure StatementEnd where
  blanks : Text
  marked : Bool
  line : Text

namespace StatementEnd

/-- The ending as it is written. -/
def text (e : StatementEnd) : Text :=
  e.blanks ++ ((if e.marked then [semicolon] else []) ++ e.line)

/-- Blanks and a line break are what the ending says they are. -/
structure WellFormed (e : StatementEnd) : Prop where
  blanks : ∀ b ∈ e.blanks, (b == space || b == tab) = true
  line : e.line = [] ∨ e.line = [newline] ∨ e.line = [carriageReturn, newline]

end StatementEnd

namespace Read

variable {src : Text}

/-- A statement ends with its text. -/
theorem statementEnd_text {stop : Nat} {e : StatementEnd} (h : e.WellFormed)
    (hdrop : src.drop stop = e.text) (hstop : stop ≤ src.length) :
    statementEnd src stop src.length = src.length := by
  have hlength : src.length = stop + e.text.length := by
    rw [← hdrop, List.length_drop]
    omega
  have hslice {i : Nat} : src.slice i src.length = src.drop i :=
    List.take_of_length_le (by rw [List.length_drop])
  have hnext : ∀ b ∈ ((if e.marked then [semicolon] else []) ++ e.line).head?,
      (b == space || b == tab) = false := by
    rcases h.line with hline | hline | hline <;> cases e.marked <;> rw [hline] <;> simp <;> decide
  have hblanks : (src.drop stop).takeWhile (fun b => b == space || b == tab) = e.blanks := by
    rw [hdrop]
    exact takeWhile_append_stop h.blanks hnext
  have hbehind := drop_add_of_eq hdrop
  have hmark : (if (src.drop (stop + e.blanks.length)).head? = some semicolon then
      stop + e.blanks.length + 1 else stop + e.blanks.length) =
      stop + e.blanks.length + (if e.marked then [semicolon] else []).length := by
    rw [hbehind]
    rcases h.line with hline | hline | hline <;> cases e.marked <;> rw [hline] <;> rfl
  have hline := drop_add_of_eq hbehind
  unfold statementEnd
  simp only [hslice, hblanks, hmark, hline]
  rw [hlength, StatementEnd.text, List.length_append, List.length_append]
  rcases h.line with hline | hline | hline <;> rw [hline] <;> simp +decide <;> omega

/-- What is passed of the end of a line. -/
theorem exists_lineEnd (src : Text) (mark : Nat) :
    ∃ line post, (line = [] ∨ line = [newline] ∨ line = [carriageReturn, newline]) ∧
      src.drop mark = line ++ post ∧
      (if [carriageReturn, newline].isPrefixOf (src.drop mark) then mark + 2
        else if [newline].isPrefixOf (src.drop mark) then mark + 1 else mark) =
        mark + line.length := by
  split
  case isTrue hprefix =>
    obtain ⟨post, hpost⟩ := List.isPrefixOf_iff_prefix.mp hprefix
    exact ⟨_, post, .inr (.inr rfl), hpost.symm, rfl⟩
  case isFalse =>
    split
    case isTrue hprefix =>
      obtain ⟨post, hpost⟩ := List.isPrefixOf_iff_prefix.mp hprefix
      exact ⟨_, post, .inr (.inl rfl), hpost.symm, rfl⟩
    case isFalse => exact ⟨[], _, .inl rfl, rfl, rfl⟩

/-- What ends a statement is of this form. -/
theorem exists_statementEnd (src : Text) (stop hi : Nat) :
    ∃ (e : StatementEnd) (post : Text), e.WellFormed ∧ src.drop stop = e.text ++ post ∧
      statementEnd src stop hi = stop + e.text.length := by
  unfold statementEnd
  dsimp only
  generalize hblanks : (src.slice stop hi).takeWhile (fun b => b == space || b == tab) = blanks
  have hall : ∀ b ∈ blanks, (b == space || b == tab) = true := by
    rw [← hblanks]
    exact fun b hb => List.mem_takeWhile_imp (p := fun b => b == space || b == tab) hb
  obtain ⟨rest, hrest⟩ : blanks <+: src.drop stop :=
    (hblanks ▸ List.takeWhile_prefix _).trans (List.take_prefix _ _)
  have hbehind := drop_add_of_eq hrest.symm
  split
  case isTrue hmark =>
    obtain ⟨rest, rfl⟩ : ∃ rest', rest = semicolon :: rest' := by
      rw [Text.slice, hbehind, List.head?_take] at hmark
      split at hmark
      · exact absurd hmark (by simp)
      · exact List.head?_eq_some_iff.mp hmark
    obtain ⟨line, post, hline, hdrop, hstop⟩ := exists_lineEnd src (stop + blanks.length + 1)
    rw [(getElem?_of_drop_eq_cons hbehind).2] at hdrop
    refine ⟨⟨blanks, true, line⟩, post, ⟨hall, hline⟩, ?_, ?_⟩
    · rw [← hrest, hdrop]
      simp [StatementEnd.text]
    · rw [hstop]
      simp [StatementEnd.text]
      omega
  case isFalse =>
    obtain ⟨line, post, hline, hdrop, hstop⟩ := exists_lineEnd src (stop + blanks.length)
    rw [hbehind] at hdrop
    refine ⟨⟨blanks, false, line⟩, post, ⟨hall, hline⟩, ?_, ?_⟩
    · rw [← hrest, hdrop]
      simp [StatementEnd.text]
    · rw [hstop]
      simp [StatementEnd.text]
      omega

end Read

/-- The parts of an import statement: its word, its clause, its source, and what ends it. -/
structure StatementParts where
  word : Text
  clause : Text
  delimiter : Byte
  source : Text
  ending : StatementEnd

namespace StatementParts

/-- From the quote in front of the source on. -/
def tail (p : StatementParts) : Text :=
  p.delimiter :: (p.source ++ p.delimiter :: p.ending.text)

/-- The statement as it is written. -/
def text (p : StatementParts) : Text :=
  p.word ++ (p.clause ++ p.tail)

/-- What is read of a statement. -/
def decl (p : StatementParts) : ImportDecl where
  source := p.source
  default? := (Read.clauseBindings (Read.clauseProper p.clause)).1
  named := (Read.clauseBindings (Read.clauseProper p.clause)).2
  raw := p.text

/-- The parts are what a statement can be cut into. -/
structure WellFormed (p : StatementParts) : Prop where
  word : p.word.length = 6
  clause : ∀ b ∈ p.clause, (b.isQuote || b == openParen || b == semicolon) = false
  delimiter : p.delimiter.isQuote = true
  source : StringBody p.delimiter p.source
  ending : p.ending.WellFormed

end StatementParts

namespace Read

variable {src : Text}

/-- Nothing that is looked for stands in front of the place where it is found. -/
theorem forall_slice_of_findIdx {q : Byte → Bool} {lo hi i : Nat}
    (h : (src.slice lo hi).findIdx? q = some i) : ∀ b ∈ src.slice lo (lo + i), q b = false := by
  obtain ⟨hlength, -, hbefore⟩ := List.findIdx?_eq_some_iff_getElem.mp h
  intro b hb
  rw [Text.slice, Nat.add_sub_cancel_left] at hb
  obtain ⟨j, hj, rfl⟩ := List.mem_iff_getElem.mp hb
  rw [List.length_take] at hj
  have hbyte := hbefore j (by omega)
  simp only [Text.slice, List.getElem_take] at hbyte ⊢
  exact Bool.eq_false_iff.mpr hbyte

/-- Import statements are made of these parts. -/
theorem parts_of_importAt {lo hi : Nat} {found : Reading lo}
    (h : importAt src lo hi = some found) :
    ∃ p : StatementParts, p.WellFormed ∧ found.ast.kind = .importing p.decl := by
  unfold importAt at h
  simp only [Option.bind_eq_bind, Option.bind_eq_some_iff] at h
  obtain ⟨i, hi', h⟩ := h
  cases hdrop : src.drop (lo + 6 + i) with
  | nil => simp [hdrop] at h
  | cons b rest =>
    simp only [hdrop] at h
    split at h
    case isTrue hquote =>
      simp only [Option.bind_eq_some_iff, Option.pure_def, Option.some.injEq] at h
      obtain ⟨n, hn, rfl⟩ := h
      obtain ⟨source, post, rfl, rfl, hsource⟩ := exists_of_stringTail hn
      obtain ⟨e, more, he, hpost, hstop⟩ :=
        exists_statementEnd src (lo + 6 + i + 1 + (source.length + 1)) hi
      have hlt : lo + 6 + i < src.length := by
        rw [← List.drop_eq_nil_iff.not.trans Nat.not_le, hdrop]
        exact List.cons_ne_nil _ _
      have hbehind : src.drop (lo + 6 + i + 1 + (source.length + 1)) = post := by
        rw [← Nat.add_assoc, ← List.drop_drop, drop_add_of_eq (getElem?_of_drop_eq_cons hdrop).2]
        rfl
      rw [hpost] at hbehind
      have hclause : ∀ c ∈ src.slice (lo + 6) (lo + 6 + i),
          (c.isQuote || c == openParen || c == semicolon) = false :=
        forall_slice_of_findIdx hi'
      refine ⟨⟨src.slice lo (lo + 6), src.slice (lo + 6) (lo + 6 + i), b, source, e⟩,
        ⟨?_, hclause, hquote, hsource, he⟩, ?_⟩
      · rw [Text.slice, List.length_take, List.length_drop]
        omega
      · have hrest : src.drop (lo + 6 + i) = b :: (source ++ b :: e.text) ++ more := by
          rw [hdrop, ← hbehind]
          simp
        have htail :
            src.slice (lo + 6 + i) (statementEnd src (lo + 6 + i + 1 + (source.length + 1)) hi) =
              b :: (source ++ b :: e.text) :=
          slice_of_drop_eq hrest (by rw [hstop]; simp; omega)
        have hraw : src.slice lo (statementEnd src (lo + 6 + i + 1 + (source.length + 1)) hi) =
              src.slice lo (lo + 6) ++
                (src.slice (lo + 6) (lo + 6 + i) ++ b :: (source ++ b :: e.text)) := by
          rw [← htail, Text.slice_append_slice _ (by omega) (by rw [hstop]; omega),
            Text.slice_append_slice _ (by omega) (by rw [hstop]; omega)]
        have htake : (source ++ b :: post).take (source.length + 1 - 1) = source := by
          rw [Nat.add_sub_cancel, List.take_left]
        simp only [Ast.placed, Ast.kind, htake, hraw]
        rfl
    case isFalse => exact absurd h (by simp)

/-- What is read at the front of such a text. -/
theorem importAt_statement {p : StatementParts} (h : p.WellFormed) :
    ∃ found : Reading 0, importAt p.text 0 p.text.length = some found ∧
      found.ast = .placed 0 p.text.length (.importing p.decl) ∧ found.stop = p.text.length := by
  have hclause : p.text.drop (0 + 6) = p.clause ++ p.tail := List.drop_left' h.word
  have htail : p.text.drop (0 + 6 + p.clause.length) =
      p.delimiter :: (p.source ++ p.delimiter :: p.ending.text) := drop_add_of_eq hclause
  have hbehind : p.text.drop (0 + 6 + p.clause.length + 1 + (p.source.length + 1)) =
      p.ending.text := by
    rw [← Nat.add_assoc, ← List.drop_drop,
      drop_add_of_eq (getElem?_of_drop_eq_cons htail).2]
    rfl
  have hlength : p.text.length = 0 + 6 + p.clause.length + 1 + (p.source.length + 1) +
      p.ending.text.length := by
    simp only [StatementParts.text, StatementParts.tail, List.length_append, List.length_cons,
      h.word]
    omega
  have hinside : p.text.slice (0 + 6) p.text.length = p.clause ++ p.tail := by
    rw [Text.slice, hclause, List.take_of_length_le]
    rw [← hclause, List.length_drop]
  have hnone : p.clause.findIdx? (fun b => b.isQuote || b == openParen || b == semicolon) = none :=
    List.findIdx?_eq_none_iff.mpr h.clause
  have hfirst : (p.clause ++ p.tail).findIdx?
      (fun b => b.isQuote || b == openParen || b == semicolon) = some p.clause.length := by
    simp [List.findIdx?_append, hnone, StatementParts.tail, List.findIdx?_cons, h.delimiter]
  have hstop : statementEnd p.text (0 + 6 + p.clause.length + 1 + (p.source.length + 1))
      p.text.length = p.text.length :=
    statementEnd_text h.ending hbehind (by omega)
  have hslice : p.text.slice (0 + 6) (0 + 6 + p.clause.length) = p.clause :=
    slice_of_drop_eq hclause rfl
  have hraw : p.text.slice 0 p.text.length = p.text := Text.slice_zero_length p.text
  have hend := h.source.stringTail_eq h.delimiter p.ending.text
  have htake : (p.source ++ p.delimiter :: p.ending.text).take (p.source.length + 1 - 1) =
      p.source := by
    rw [Nat.add_sub_cancel, List.take_left]
  unfold importAt
  simp only [hinside, hfirst, htail, h.delimiter, hend, hstop, hslice, hraw, htake,
    Option.bind_eq_bind, Option.bind_some, Option.pure_def, if_true]
  exact ⟨_, rfl, rfl, rfl⟩

/-- A text that is put together so is read as an import statement, and nothing more. -/
theorem program_import {p : StatementParts} (h : p.WellFormed) (hword : p.word = importWord)
    (hclause : p.clause.head? = some space) :
    program p.text = .ok [.placed 0 p.text.length (.importing p.decl)] := by
  obtain ⟨found, hfound, hast, hstop⟩ := importAt_statement h
  have hstarts : importStarts p.text 0 0 = true := by
    obtain ⟨clause, hclause⟩ := List.head?_eq_some_iff.mp hclause
    have htext : p.text = importWord ++ space :: (clause ++ p.tail) := by
      rw [StatementParts.text, hword, hclause]
      rfl
    have hprefix : importWord.isPrefixOf (p.text.drop 0) = true :=
      List.isPrefixOf_iff_prefix.mpr ⟨_, htext.symm⟩
    have hbehind : p.text[0 + 6]? = some space := by
      rw [htext]
      rfl
    have hline : atLineStart p.text 0 = true := Text.isBlank_nil
    rw [importStarts, hprefix, hbehind, hline]
    rfl
  have hdone {r : Readers} : codeFrom r p.text 0 p.text.length found.stop found.stop = .ok [] := by
    rw [codeFrom, if_neg (by rw [hstop]; exact Nat.lt_irrefl _), hstop, opaqueCode,
      if_neg (Nat.lt_irrefl _)]
    rfl
  obtain ⟨rest, hrest⟩ : ∃ rest, p.text = 0x69 :: rest := by
    rw [StatementParts.text, hword]
    exact ⟨_, rfl⟩
  have hlead : lead 0x69 rest = .plain := by
    simp +decide [lead]
  unfold program code
  rw [codeFrom, if_pos (by rw [hrest]; exact Nat.succ_pos _)]
  simp only [List.drop_zero, hrest, hlead]
  rw [← hrest, if_pos hstarts]
  have hnothing : opaqueCode p.text 0 0 = [] := if_neg (Nat.lt_irrefl 0)
  simp only [hfound, hdone, hast, hnothing]
  rfl

end Read

/-- An import statement of the tree is made of the parts of a statement. -/
def Ast.StatementShown (a : Ast) : Prop :=
  ∀ decl, a.kind = .importing decl → ∃ p : StatementParts, p.WellFormed ∧ p.decl = decl

/-- What a statement shows of the source holds as it is read. -/
theorem Read.holdsAsRead_statementShown (src : Text) : HoldsAsRead src Ast.StatementShown where
  code lo hi decl hkind := nomatch hkind
  importing hfound decl hkind := by
    obtain ⟨p, hp, hdecl⟩ := parts_of_importAt hfound
    exact ⟨p, hp, Kind.importing.inj (hdecl.symm.trans hkind)⟩
  template _ _ _ decl hkind := nomatch hkind
  other _ hk _ decl hkind := absurd (congrArg Kind.form hkind) hk

/-- An import of a module that was read comes apart into well-formed parts. -/
theorem Tree.parts_of_importing {src : Text} {t : Tree} (ht : Tree.ofSource src = .ok t)
    {n : NodeId} {decl : ImportDecl} (hn : t.kind n = .importing decl) :
    ∃ p : StatementParts, p.WellFormed ∧ p.decl = decl := by
  have hform : t.form n = .importing := congrArg Kind.form hn
  obtain ⟨b, hdepicts, hshown⟩ := holds_of_read (Read.holdsAsRead_statementShown src) ht
    (lt_size_of_form (by rw [hform]; decide)) (by rw [hform]; decide)
  cases hdepicts with
  | node z _ hkind _ =>
    refine hshown decl ?_
    rw [hn] at hkind
    cases z with
    | importing decl' => exact congrArg Kind.importing (Kind.importing.inj hkind).symm
    | _ => exact absurd hkind (by simp [Kind.map])

/-! ### A statement without the bindings of one name -/

/-- The search for the source goes past a clause. -/
theorem Clause.passed {c : Clause} (h : c.WellFormed) {gap : Text} (hgap : gap.isBlank = true) :
    ∀ b ∈ c.text ++ fromWord ++ gap, (b.isQuote || b == openParen || b == semicolon) = false := by
  have hstops : ∀ b : Byte, (b.isQuote || b == openParen || b == semicolon) = true →
      b ∈ [openParen, semicolon, quote, apostrophe] ∧ b.isClauseSign = true ∧ b ≠ space ∧
        b ∉ fromWord :=
    forall_byte (by decide +kernel)
  intro b hb
  refine Bool.eq_false_iff.mpr fun hstop => ?_
  obtain ⟨hmem, hsign, hspace, hfrom⟩ := hstops b hstop
  rcases List.mem_append.mp hb with hb | hb
  · exact (List.mem_append.mp hb).elim (sign_not_mem_clause h hmem) hfrom
  · exact Text.sign_not_mem hgap hsign hspace hb

namespace StatementParts

variable {p : StatementParts} {c : Clause} {gap tail name : Text}

/-- A byte that may stand in a clause is no quote. -/
theorem not_quote {b : Byte} (h : (b.isQuote || b == openParen || b == semicolon) = false) :
    b.isQuote = false := by
  simp only [Bool.or_eq_false_iff] at h
  exact h.1.1

/-- A statement that is written with a clause has it for its clause. -/
theorem clause_eq (h : p.WellFormed) (hc : c.WellFormed) (hgap : gap.isBlank = true)
    (htail : tail.head?.any Byte.isQuote = true)
    (htext : p.text = Read.importWord ++ (c.text ++ fromWord ++ gap ++ tail)) :
    p.word = Read.importWord ∧ p.clause = c.text ++ fromWord ++ gap ∧ p.tail = tail := by
  obtain ⟨hword, hrest⟩ := List.append_inj htext (h.word.trans (by decide))
  -- Both clauses go up to the first quote.
  have hleft : (p.clause ++ p.tail).takeWhile (!·.isQuote) = p.clause :=
    takeWhile_append_stop (fun b hb => by rw [not_quote (h.clause b hb)]; rfl)
      fun b hb => by
        obtain rfl : p.delimiter = b := Option.some.inj hb
        rw [h.delimiter]
        rfl
  have hright : (c.text ++ fromWord ++ gap ++ tail).takeWhile (!·.isQuote) =
      c.text ++ fromWord ++ gap :=
    takeWhile_append_stop (fun b hb => by rw [not_quote (Clause.passed hc hgap b hb)]; rfl)
      fun b hb => by
        rw [Option.mem_def.mp hb, Option.any_some] at htail
        rw [htail]
        rfl
  have hclause : p.clause = c.text ++ fromWord ++ gap := by rw [← hleft, hrest, hright]
  rw [hclause] at hrest
  exact ⟨hword, hclause, List.append_cancel_left hrest⟩

/-- The parts of a statement with its clause written anew. -/
def rewritten (p : StatementParts) (c : Clause) : StatementParts :=
  { p with word := Read.importWord, clause := c.text ++ fromWord ++ [space] }

/-- A statement with another well-formed clause is well formed. -/
theorem wellFormed_rewritten (h : p.WellFormed) (hc : c.WellFormed) :
    (p.rewritten c).WellFormed where
  word := show Read.importWord.length = 6 by decide
  clause := Clause.passed hc Clause.isBlank_space
  delimiter := h.delimiter
  source := h.source
  ending := h.ending

/-- What is written without the bindings of one name. -/
theorem raw_without (h : p.WellFormed) (hword : p.word = Read.importWord)
    (hread : Read.clauseBindings (Read.clauseProper p.clause) = (c.default?, c.bindings)) :
    (p.decl.without name).raw = (p.rewritten (c.without name)).text := by
  have himport : ∀ b ∈ Read.importWord, b.isQuote = false :=
    List.findIdx?_eq_none_iff.mp (by decide)
  have hlead : (Read.importWord ++ p.clause).findIdx? Byte.isQuote = none :=
    List.findIdx?_eq_none_iff.mpr fun b hb =>
      (List.mem_append.mp hb).elim (himport b) fun hb => not_quote (h.clause b hb)
  have hraw : p.decl.raw = Read.importWord ++ p.clause ++ p.tail := by
    rw [List.append_assoc, ← hword]
    rfl
  have hquote : p.decl.raw.findIdx? Byte.isQuote = some (Read.importWord ++ p.clause).length := by
    rw [hraw, List.findIdx?_append, hlead]
    simp [tail, List.findIdx?_cons, h.delimiter]
  have htail : p.decl.raw.drop (Read.importWord ++ p.clause).length = p.tail := by
    rw [hraw, List.drop_left]
  have hdefault : p.decl.default? = c.default? := congrArg Prod.fst hread
  have hnamed : p.decl.named = c.bindings := congrArg Prod.snd hread
  have htext : (p.rewritten (c.without name)).text =
      Read.importWord ++ ((c.without name).text ++ fromWord ++ [space] ++ p.tail) := rfl
  simp only [ImportDecl.without, hquote, htail, hdefault, hnamed, htext, Clause.text_without,
    show Text.ofString "import " = Read.importWord ++ [space] by decide,
    show Text.ofString " from " = [space] ++ fromWord ++ [space] by decide, List.append_assoc]

end StatementParts

namespace Tree

/-- **An import statement without the bindings of one name** is read as one import from the
same source, with the other bindings.  Its clause has their specifiers, without modifiers: a
specifier stays as it was if it had none, and did not rename a name to itself. -/
theorem import_without {src : Text} {t : Tree} (ht : ofSource src = .ok t) {n : NodeId}
    {decl : ImportDecl} (hn : t.kind n = .importing decl) {c : Clause} (hc : c.WellFormed)
    (hclear : c.isClear = true) {gap tail : Text} (hgap : gap.isBlank = true)
    (htail : tail.head?.any Byte.isQuote = true)
    (hraw : decl.raw = Read.importWord ++ (c.text ++ fromWord ++ gap ++ tail)) {name : Text}
    (hkept : (decl.without name).boundNames ≠ []) :
    ∃ kept : ImportDecl,
      Read.program (decl.without name).raw =
          .ok [.placed 0 (decl.without name).raw.length (.importing kept)] ∧
        kept.source = decl.source ∧ kept.default? = decl.default?.filter (· ≠ name) ∧
        kept.named = decl.named.filter (·.bound ≠ name) ∧
        kept.raw = Read.importWord ++ ((c.without name).text ++ fromWord ++ [space] ++ tail) ∧
        (c.without name).specifiers =
          (c.specifiers.filter (·.bound ≠ name)).map Specifier.plain ∧
        ∀ s ∈ c.specifiers, s.bound ≠ name → s.typed = false → s.renamed ≠ some s.imported →
          s ∈ (c.without name).specifiers := by
  obtain ⟨p, hp, rfl⟩ := parts_of_importing ht hn
  obtain ⟨hword, hclause, rfl⟩ := StatementParts.clause_eq hp hc hgap htail hraw
  have hread : Read.clauseBindings (Read.clauseProper p.clause) = (c.default?, c.bindings) := by
    rw [hclause, c.bindings_text hc hclear hgap]
  have hdefault : p.decl.default? = c.default? := congrArg Prod.fst hread
  have hnamed : p.decl.named = c.bindings := congrArg Prod.snd hread
  have hbinds : (c.without name).default?.isSome = true ∨ (c.without name).bindings ≠ [] := by
    by_contra hnone
    rw [not_or, Option.not_isSome_iff_eq_none, not_not, Clause.bindings_without] at hnone
    have hfiltered : p.decl.default?.filter (· ≠ name) = none := by rw [hdefault]; exact hnone.1
    refine hkept ?_
    simp only [ImportDecl.boundNames, ImportDecl.without, hfiltered, hnamed, hnone.2]
    rfl
  -- The clause that is written anew is one that is read for what it is.
  have hwithout := Clause.wellFormed_without hc hbinds
  have hreread : Read.clauseBindings (Read.clauseProper (p.rewritten (c.without name)).clause) =
      ((c.without name).default?, (c.without name).bindings) :=
    (c.without name).bindings_text hwithout (Clause.isClear_without hc hclear) Clause.isBlank_space
  have hspecifiers := c.specifiers_without name
  refine ⟨(p.rewritten (c.without name)).decl, ?_, rfl, ?_, ?_, rfl, hspecifiers,
    fun s hs hbound htyped hrenamed => ?_⟩
  · rw [StatementParts.raw_without hp hword hread]
    exact Read.program_import (StatementParts.wellFormed_rewritten hp hwithout) rfl rfl
  · rw [hdefault]
    exact congrArg Prod.fst hreread
  · rw [hnamed, ← c.bindings_without name]
    exact congrArg Prod.snd hreread
  · rw [hspecifiers]
    exact List.mem_map.mpr
      ⟨s, List.mem_filter.mpr ⟨hs, by simpa using hbound⟩, s.plain_eq_self htyped hrenamed⟩

/-- An import of the style builder, of a value under another name, and of a type. -/
def sampleImport : Text :=
  Text.ofString "import tw, \x7b a as b, type c \x7d from 'm';\n"

/-- The clause of the sample. -/
def sampleClause : Clause where
  before := [space]
  default? := some (Text.ofString "tw")
  gap := []
  middle := [space]
  entries? := some [⟨[space], some ⟨false, Text.ofString "a", some (Text.ofString "b")⟩, []⟩,
    ⟨[space], some ⟨true, Text.ofString "c", none⟩, [space]⟩]
  after := [space]

/-- What is read of the sample. -/
def sampleDecl : ImportDecl where
  source := Text.ofString "m"
  default? := some (Text.ofString "tw")
  named := [⟨Text.ofString "a", Text.ofString "b"⟩, ⟨Text.ofString "c", Text.ofString "c"⟩]
  raw := sampleImport

/-- The sample clause is well formed. -/
theorem wellFormed_sampleClause : sampleClause.WellFormed := by
  have hspace := Clause.isBlank_space
  refine ⟨hspace, ?_, Text.isBlank_nil, hspace, ?_, hspace, Or.inl rfl⟩
  · rintro _ ⟨⟩
    exact isClauseName_of_isIdentifier (by decide)
  · rintro _ ⟨⟩
    refine List.forall_mem_cons.mpr ⟨⟨hspace, ?_, Text.isBlank_nil⟩,
      List.forall_mem_singleton.mpr ⟨hspace, ?_, hspace⟩⟩
    · rintro _ ⟨⟩
      refine ⟨isClauseName_of_isIdentifier (by decide), ?_⟩
      rintro _ ⟨⟩
      exact isClauseName_of_isIdentifier (by decide)
    · rintro _ ⟨⟩
      exact ⟨isClauseName_of_isIdentifier (by decide), by rintro _ ⟨⟩⟩

/-- The sample statement is read as it is meant. -/
theorem sampleDecl_read :
    ∃ t : Tree, ofSource sampleImport = .ok t ∧ t.kind 1 = .importing sampleDecl := by
  have hrun : ((ofSource sampleImport).toOption.any fun t =>
      t.kind 1 = .importing sampleDecl) = true := by
    decide +kernel
  obtain ⟨t, hread, hkind⟩ := exists_of_any hrun
  exact ⟨t, hread, of_decide_eq_true hkind⟩

/-- The sample without the style builder. -/
theorem sampleImport_reread :
    ∃ kept : ImportDecl,
      Read.program (sampleDecl.without (Text.ofString "tw")).raw =
          .ok [.placed 0 (sampleDecl.without (Text.ofString "tw")).raw.length (.importing kept)] ∧
        kept.source = sampleDecl.source ∧ kept.default? = none ∧ kept.named = sampleDecl.named ∧
        kept.raw = Text.ofString "import \x7b a as b, c \x7d from 'm';\n" := by
  obtain ⟨t, hread, hkind⟩ := sampleDecl_read
  obtain ⟨kept, hprogram, hsource, hdefault, hnamed, hraw, -⟩ :=
    import_without hread hkind wellFormed_sampleClause (by decide) Clause.isBlank_space
      (by decide : (Text.ofString "'m';\n").head?.any Byte.isQuote = true) (by decide)
      (by decide : (sampleDecl.without (Text.ofString "tw")).boundNames ≠ [])
  exact ⟨kept, hprogram, hsource, hdefault.trans (by decide), hnamed.trans (by decide),
    hraw.trans (by decide)⟩

/-- Not every specifier stays as it was written: the modifier of a type goes. -/
theorem not_always_as_written :
    ¬ ∀ (src : Text) (t : Tree) (n : NodeId) (decl : ImportDecl) (c : Clause)
      (gap tail name : Text), ofSource src = .ok t → t.kind n = .importing decl → c.WellFormed →
      gap.isBlank = true → tail.head?.any Byte.isQuote = true →
      decl.raw = Read.importWord ++ (c.text ++ fromWord ++ gap ++ tail) →
      (decl.without name).boundNames ≠ [] →
      ∀ s ∈ c.specifiers, s.bound ≠ name → s.text <:+: (decl.without name).raw := by
  intro h
  obtain ⟨t, hread, hkind⟩ := sampleDecl_read
  have hsame := h sampleImport t 1 sampleDecl sampleClause [space] (Text.ofString "'m';\n")
    (Text.ofString "tw") hread hkind wellFormed_sampleClause Clause.isBlank_space (by decide)
    (by decide) (by decide) ⟨true, Text.ofString "c", none⟩ (by decide) (by decide)
  exact absurd hsame (by decide +kernel)

end Tree

end JsxStyle
