import JsxStyle.Proofs.Trimming

/-!
# Comments hide the markup behind them

Whether a `<` begins markup is judged by what stands before it, and what stands
before it may be a comment.  The reader of code steps over comments, but the look
back does not know them: it judges by the last bytes of the comment.  The comment
begins with a slash, which is neither white space nor part of a word, so the look
back never comes out in front of it, and the code there has no say.

A block comment ends with a slash, behind which no markup begins.  So an element
that directly follows a block comment is not found, whatever the comment and the
code around it are; a line comment hides one unless its own text ends like code
that expects an expression.

* `Scan.markupMayStart_behind_mark`: what the look back sees;
* `Read.element_of_program`: elements are read at a `<` where markup may begin;
* `Read.no_element_behind_comment`: what this means behind either kind of comment;
* `Read.not_found_behind_comment`: an element that only the comment hides.
-/

namespace JsxStyle

open Ascii

/-- A byte that is a character of its own, and neither white space nor part of a word. -/
def Byte.isMark (b : Byte) : Bool :=
  b.isAscii && !Text.isBlankByte b && !b.isIdentChar

/-- A mark is a visible ASCII byte that is not part of an identifier. -/
theorem Byte.isMark_iff {b : Byte} :
    b.isMark = true ↔ b.isAscii = true ∧ Text.isBlankByte b = false ∧ b.isIdentChar = false := by
  simp [isMark, and_assoc]

section Marks

variable {c : Byte} (hc : c.isMark = true)
include hc

namespace Text

/-- White space contains no mark. -/
theorem isBlank_eq_false_of_mem {t : Text} (h : c ∈ t) : isBlank t = false := by
  obtain ⟨hascii, hblank, -⟩ := Byte.isMark_iff.mp hc
  refine Bool.eq_false_iff.mpr fun hall => ?_
  rcases isBlankByte_of_mem hall h with hmem | hmem
  · exact Bool.false_ne_true (hblank.symm.trans hmem)
  · exact Bool.false_ne_true (hmem.symm.trans hascii)

/-- Trimming the end does not go past a mark. -/
theorem trimEnd_append_mark (u v : Text) : trimEnd (u ++ c :: v) = u ++ trimEnd (c :: v) := by
  have hascii := (Byte.isMark_iff.mp hc).1
  have hparted : Parted u (c :: v) := Or.inr fun b hb => by
    obtain rfl : c = b := Option.some.inj hb
    exact Byte.not_isContinuation_of_isAscii hascii
  exact trimEnd_append_of_parted hparted (isBlank_eq_false_of_mem hc List.mem_cons_self)

/-- Trimming the end never takes a mark in front. -/
theorem trimEnd_mark (v : Text) : trimEnd (c :: v) = c :: trimEnd v := by
  rw [trimEnd, isBlank_eq_false_of_mem hc List.mem_cons_self, if_neg (by simp)]

end Text

namespace Scan

/-- The word that ends a text does not reach past a mark. -/
theorem lastWord_append_mark (u v : Text) : lastWord (u ++ c :: v) = lastWord (c :: v) := by
  have hstop := (Byte.isMark_iff.mp hc).2.2
  simp [lastWord, List.takeWhile_append, hstop]

/-- What stands before a mark has no say in whether markup may begin further on. -/
theorem markupMayStart_behind_mark {src before t : Text} {i : Nat}
    (h : src.take i = before ++ c :: t) :
    markupMayStart src i = markupMayStart (c :: t) (c :: t).length := by
  unfold markupMayStart endsWithKeyword
  rw [h, List.take_length, Text.trimEnd_append_mark hc, Text.trimEnd_mark hc]
  dsimp only
  rw [lastWord_append_mark hc, List.getLast?_append_of_ne_nil _ (List.cons_ne_nil _ _)]

/-- Nor has it in whether a line begins there. -/
theorem atLineStart_behind_mark {src before t : Text} {i : Nat}
    (h : src.take i = before ++ c :: t) :
    atLineStart src i = atLineStart (c :: t) (c :: t).length := by
  have hline : (c != newline) = true := by
    refine bne_iff_ne.mpr fun hnewline => ?_
    rw [hnewline] at hc
    exact absurd hc (by decide)
  have hrun (rest : Text) : (c :: rest).takeWhile (· != newline) =
      c :: rest.takeWhile (· != newline) := List.takeWhile_cons_of_pos hline
  unfold atLineStart
  rw [h, List.take_length, List.reverse_append, List.reverse_cons, List.append_assoc,
    List.singleton_append, List.takeWhile_append, List.takeWhile_append, hrun, hrun]
  -- Without a line feed behind the mark, both runs reach back to it.
  split
  · rw [Text.isBlank_eq_false_of_mem hc (by simp), Text.isBlank_eq_false_of_mem hc (by simp)]
  · rfl

end Scan

end Marks

namespace Scan

/-- No markup begins behind a slash. -/
theorem markupMayStart_slash (before after : Text) :
    markupMayStart (before ++ [slash] ++ after) (before ++ [slash]).length = false := by
  rw [markupMayStart_behind_mark (c := slash) (by decide) List.take_left]
  decide +kernel

end Scan

namespace Read

variable {r : Readers} {src : Text}

/-- If the tree is an element, it was read at a `<` where markup may begin. -/
def FoundInCode (r : Readers) (src : Text) (hi : Nat) (a : Ast) : Prop :=
  a.kind.form = .element → ∃ (pos : Nat) (found : Reading pos), found.ast = a ∧
    src[pos]? = some less ∧ Scan.markupMayStart src pos = true ∧
      r.element pos hi = .ok (some found)

variable {hi : Nat}

/-- What is no element need not be found at a `<`. -/
theorem foundInCode_of_form {a : Ast} {f : Form} (h : a.kind.form = f) (hf : f ≠ .element) :
    FoundInCode r src hi a :=
  fun helement => absurd (h.symm.trans helement) hf

/-- Opaque code need not be found at a `<`. -/
theorem foundInCode_opaqueCode (lo mid : Nat) :
    ∀ a ∈ opaqueCode src lo mid, FoundInCode r src hi a := by
  intro a ha
  obtain ⟨-, rfl⟩ := eq_of_mem_opaqueCode ha
  exact foundInCode_of_form (f := .code) rfl (by decide)

/-- What is read as a tagged template is a template. -/
theorem form_taggedTemplate {tag : Ast} {lo tick : Nat} {found : Reading tick}
    (h : taggedTemplate r src tag lo tick = .ok found) : found.ast.kind.form = .template := by
  obtain ⟨_, _, -, -, -, hast⟩ := taggedTemplate_eq_ok h
  rw [hast]
  rfl

/-- What is read as an import is one. -/
theorem form_importAt {lo hi : Nat} {found : Reading lo} (h : importAt src lo hi = some found) :
    found.ast.kind.form = .importing := by
  obtain ⟨_, _, _, _, _, -, -, -, -, hast⟩ := importAt_eq_some h
  rw [hast]
  rfl

/-- Every element among the parts of code is found where markup may begin. -/
theorem foundInCode_codeFrom {lo flushed i : Nat} {as : List Ast}
    (h : codeFrom r src lo hi flushed i = .ok as) : ∀ a ∈ as, FoundInCode r src hi a := by
  have hjoin {lo mid : Nat} {found : Ast} {more : List Ast} (hfound : FoundInCode r src hi found)
      (hmore : ∀ a ∈ more, FoundInCode r src hi a) :
      ∀ a ∈ opaqueCode src lo mid ++ found :: more, FoundInCode r src hi a :=
    List.forall_mem_append.mpr ⟨foundInCode_opaqueCode lo mid,
      List.forall_mem_cons.mpr ⟨hfound, hmore⟩⟩
  replace h := codeTrace h
  induction h with
  | done => exact foundInCode_opaqueCode _ _
  | pass _ _ _ ih => exact ih
  | template _ _ _ hfound _ ih =>
    exact hjoin (foundInCode_of_form (form_taggedTemplate hfound) (by decide)) ih
  | importing _ _ hfound _ ih =>
    exact hjoin (foundInCode_of_form (form_importAt hfound) (by decide)) ih
  -- The only step that reads elements, and it is taken only where markup may begin.
  | @element _ i found _ _ hless hmay hfound _ ih =>
    exact hjoin (fun _ => ⟨i, found, rfl, hless, hmay, hfound⟩) ih

/-- The elements of a program were read where they begin, and markup may begin there. -/
theorem element_of_program {body : List Ast} (h : program src = .ok body) {a : Ast} (ha : a ∈ body)
    (hform : a.kind.form = .element) {s : Span} (hspan : a.span = some s) :
    ∃ found : Reading s.lo, found.ast = a ∧ found.stop = s.hi ∧ src[s.lo]? = some less ∧
      src[s.hi - 1]? = some greater ∧ Scan.markupMayStart src s.lo = true ∧
      (readers src (src.length + 1)).element s.lo src.length = .ok (some found) := by
  obtain ⟨pos, found, rfl, hless, hmay, hread⟩ := foundInCode_codeFrom h a ha hform
  obtain ⟨-, hspan', hgreater⟩ := covers_readers src _ hread
  obtain rfl : ⟨pos, found.stop⟩ = s := Option.some.inj (hspan'.symm.trans hspan)
  exact ⟨found, rfl, rfl, hless, hgreater, hmay, hread⟩

/-- Whether an element of the program begins at `pos`. -/
def hasElementAt (src : Text) (pos : Nat) : Bool :=
  match program src with
  | .error _ => false
  | .ok body => body.any fun a => a.kind.form = .element ∧ a.span.any (·.lo = pos)

/-- Where the program reads an element, markup may begin. -/
theorem markupMayStart_of_hasElementAt {pos : Nat} (h : hasElementAt src pos = true) :
    Scan.markupMayStart src pos = true := by
  unfold hasElementAt at h
  cases hbody : program src with
  | error e => simp [hbody] at h
  | ok body =>
    simp only [hbody, List.any_eq_true, Bool.decide_and, Bool.and_eq_true, decide_eq_true_eq,
      Option.any_eq_true] at h
    obtain ⟨a, ha, hform, s, hspan, rfl⟩ := h
    obtain ⟨-, -, -, -, -, hmay, -⟩ := element_of_program hbody ha hform hspan
    exact hmay

/-- The comment around `t` that ends with `*/`. -/
def blockComment (t : Text) : Text :=
  slash :: star :: t ++ [star, slash]

/-- The comment with the text `t` that ends with its line. -/
def lineComment (t : Text) : Text :=
  slash :: slash :: t ++ [newline]

/-- A comment that does not end before its last byte. -/
inductive IsComment : Text → Prop
  | block {t : Text} (h : Text.hasWord [star, slash] t = false) : IsComment (blockComment t)
  | line {t : Text} (h : newline ∉ t) : IsComment (lineComment t)

/-- **Comments hide what follows them.**  No element begins behind a block comment, and none
begins behind a line comment unless markup might begin behind the comment if it were all the
code there is. -/
theorem no_element_behind_comment {before t after comment : Text}
    (hcomment : comment = blockComment t ∨
      comment = lineComment t ∧ Scan.markupMayStart comment comment.length = false) :
    hasElementAt (before ++ comment ++ after) (before ++ comment).length = false := by
  refine Bool.eq_false_iff.mpr fun h => ?_
  have hmay := markupMayStart_of_hasElementAt h
  rcases hcomment with rfl | ⟨rfl, hhidden⟩
  · have hslash := Scan.markupMayStart_slash (before ++ slash :: star :: t ++ [star]) after
    simp only [blockComment, List.append_assoc, List.cons_append, List.nil_append] at hslash hmay
    exact Bool.false_ne_true (hslash.symm.trans hmay)
  · have hbehind := Scan.markupMayStart_behind_mark (c := slash) (by decide)
      (@List.take_left _ (before ++ lineComment t) after)
    exact Bool.false_ne_true (hhidden.symm.trans (hbehind.symm.trans hmay))

/-- An element behind an assignment is not found any more when a line comment comes between. -/
theorem no_element_behind_note :
    ∃ before t after comment : Text, before = Text.ofString "x = " ∧
      after = Text.ofString "<a tw='b' />" ∧ comment = Text.ofString "// c\n" ∧
      hasElementAt (before ++ after) before.length = true ∧ comment = lineComment t ∧
      Scan.markupMayStart comment comment.length = false ∧
      hasElementAt (before ++ comment ++ after) (before ++ comment).length = false := by
  have hline : Text.ofString "// c\n" = lineComment (Text.ofString " c") := by decide +kernel
  have hhidden : Scan.markupMayStart (Text.ofString "// c\n")
      (Text.ofString "// c\n").length = false := by decide +kernel
  exact ⟨_, _, _, _, rfl, rfl, rfl, by decide +kernel, hline, hhidden,
    no_element_behind_comment (.inr ⟨hline, hhidden⟩)⟩

/-- Not every element is found where a comment stands in front of it. -/
theorem not_found_behind_comment :
    ¬ ∀ before comment after : Text, IsComment comment →
      hasElementAt (before ++ after) before.length = true →
      hasElementAt (before ++ comment ++ after) (before ++ comment).length = true := by
  intro h
  have hfound := h (Text.ofString "x = ") (blockComment (Text.ofString " c "))
    (Text.ofString "<a tw='b' />") (.block (by decide +kernel)) (by decide +kernel)
  exact absurd hfound (by decide +kernel)

end Read

end JsxStyle
