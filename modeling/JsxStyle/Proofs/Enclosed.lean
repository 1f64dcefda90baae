import JsxStyle.Proofs.Reread
import JsxStyle.Proofs.Shape

/-!
# Text of markup between braces

Between tags, text is text whatever bytes it is made of, as long as none of them
opens a tag or a pair of braces.  The search for the brace that closes an
expression knows nothing of tags, though, so markup inside an expression is read
as outside if that search passes over its text, and a quote in the text that
pairs with nothing keeps the search from ever coming to its end.

* `program_outside`: an element with any text in it, as the value of a statement;
* `program_braced`: any markup inside braces, if the search finds their end behind it;
* `program_inside`: the element inside braces, if its text is passed over;
* `program_unclosed`: the error where its text has a quote that stands alone.
-/

namespace JsxStyle

open Ascii Scan

namespace Scan

/-- A quote that stands alone hides the end of a group. -/
theorem closeTail_stray_quote {before after : Text} (hbefore : Passes before) {q : Byte}
    (hq : q.isQuote = true) (hafter : q ∉ after) (close : Byte) (below : List Frame) :
    closeTail (.group close) below (before ++ q :: after) = none := by
  rw [hbefore, closeTail_group_cons, lead_of_isQuote hq]
  simp only [stringTail_eq_none hafter]
  rfl

/-- A slash opens nothing if no other slash and no star follows. -/
theorem Passes.slashed {t : Text} (ht : Passes t) {b : Byte} (hb : t.head? = some b)
    (hslash : b ≠ slash) (hstar : b ≠ star) : Passes (slash :: t) := by
  intro close below post
  have hlead : lead slash (t ++ post) = .plain := by
    simp +decide [lead, List.head?_append, hb, hslash, hstar]
  rw [List.cons_append, closeTail_group_cons, hlead]
  have hcloser : slash.isCloser = false := by decide
  simp only [hcloser, Bool.false_eq_true, if_false, ht close below post, map_add_add,
    List.length_cons]

/-- A name ends where it does if no name byte follows it. -/
theorem nameLength_append {name post : Text} (hname : name.isIdentifier = true)
    (hpost : ∀ b ∈ post.head?, b.isNameChar = false) : nameLength (name ++ post) = name.length := by
  obtain ⟨b, rest, rfl, hb, hrest⟩ := Text.exists_of_isIdentifier hname
  have hrest' : ∀ c ∈ rest, c.isNameChar = true := fun c hc => by
    simp [Byte.isNameChar, hrest c hc]
  rw [List.cons_append, nameLength, if_pos hb, takeWhile_append_stop hrest' hpost,
    List.length_cons, Nat.add_comm]

/-- No white space is skipped where something else stands. -/
theorem skipSpace_eq_self {src : Text} {pos stop : Nat} {b : Byte}
    (h : (src.drop pos).head? = some b) (hb : b.isSpace = false) :
    skipSpace src pos stop = pos := by
  obtain ⟨rest, hdrop⟩ := List.head?_eq_some_iff.mp h
  rw [skipSpace, Text.slice, hdrop]
  cases stop - pos <;> simp [hb]

end Scan

namespace Read

open Text

variable {r : Readers} {src : Text}

section Steps

variable {lo hi flushed i : Nat} {b : Byte} {rest : Text}

/-- Only an `i` can begin an import. -/
theorem importStarts_eq_false (hdrop : src.drop i = b :: rest) (hb : b ≠ 0x69) (lo : Nat) :
    importStarts src lo i = false := by
  have hword : importWord = 0x69 :: importWord.drop 1 := by decide
  rw [importStarts, hdrop, hword, List.isPrefixOf]
  simp [Ne.symm hb]

/-- A byte that nothing begins with that is looked for in code. -/
def isIdle (b : Byte) : Bool :=
  isInert b && b != 0x69 && b != less

/-- Code goes on behind bytes that begin nothing. -/
theorem codeFrom_idle {t : Text} (ht : t.all isIdle = true)
    (hdrop : src.drop i = t ++ rest) (hhi : i + t.length ≤ hi) :
    codeFrom r src lo hi flushed i = codeFrom r src lo hi flushed (i + t.length) := by
  induction t generalizing i with
  | nil => rfl
  | cons b t ih =>
    rw [List.all_cons, Bool.and_eq_true, isIdle, Bool.and_eq_true, Bool.and_eq_true] at ht
    obtain ⟨⟨⟨hinert, himport⟩, hless⟩, hrest⟩ := ht
    rw [bne_iff_ne] at himport hless
    rw [List.length_cons] at hhi
    rw [List.cons_append] at hdrop
    have hnext : src.drop (i + 1) = t ++ rest := by
      rw [← List.drop_drop, hdrop, List.drop_one, List.tail_cons]
    rw [codeFrom, if_pos (by omega), hdrop]
    simp only [(lead_of_isInert hinert _).1, importStarts_eq_false hdrop himport, hless,
      false_and, if_false, Bool.false_eq_true]
    rw [ih hrest hnext (by omega), List.length_cons]
    congr 1
    omega

/-- At a `<` where markup may start, code is cut if an element is read there. -/
theorem codeFrom_less (hdrop : src.drop i = less :: rest) (hhi : i < hi)
    (hstart : markupMayStart src i = true) :
    codeFrom r src lo hi flushed i =
      (r.element i hi >>= fun
        | some found => do
          let more ← codeFrom r src lo hi found.stop found.stop
          return opaqueCode src flushed i ++ found.ast :: more
        | none => codeFrom r src lo hi flushed (i + 1)) := by
  have hlead : lead less rest = .plain := (lead_of_isInert (by decide) rest).1
  rw [codeFrom, if_pos hhi, hdrop]
  simp only [hlead, importStarts_eq_false hdrop (by decide), Bool.false_eq_true, if_false]
  exact if_pos (by simpa using hstart)

/-- Code ends where its range does. -/
theorem codeFrom_end (h : hi ≤ i) :
    codeFrom r src lo hi flushed i = .ok (opaqueCode src flushed hi) := by
  rw [codeFrom, if_neg (Nat.not_lt.mpr h)]
  rfl

end Steps

section Tags

variable {name text post : Text} {lo hi pos : Nat}

/-- The closing tag of `name`, as it is written. -/
def closingOf (name : Text) : Text :=
  less :: slash :: (name ++ [greater])

/-- The element called `name` with nothing but text in it, as it is written. -/
def tagged (name text : Text) : Text :=
  less :: (name ++ greater :: (text ++ closingOf name))

/-- Text that is read as such: there is some, and it opens neither a tag nor braces. -/
def IsMarkupText (text : Text) : Prop :=
  text ≠ [] ∧ less ∉ text ∧ openBrace ∉ text

instance (text : Text) : Decidable (IsMarkupText text) :=
  inferInstanceAs (Decidable (_ ∧ _ ∧ _))

/-- The offset behind the opening tag of `name` that begins at `lo`. -/
def behindOpening (name : Text) (lo : Nat) : Nat :=
  lo + 1 + name.length + 1

/-- What is read of the element called `name` from `lo` to `hi` with these children. -/
def elementAt (name : Text) (lo hi : Nat) (children : List Ast) (closing : Text) : Ast :=
  .placed lo hi (.element (.placed lo (behindOpening name lo) (.opening name [] false)) children
    (some closing))

/-- What is read of an element with nothing but text in it that begins at `lo`. -/
def taggedAt (name text : Text) (lo : Nat) : Ast :=
  elementAt name lo (lo + (tagged name text).length)
    [.placed (behindOpening name lo) (behindOpening name lo + text.length) (.text text)]
    (closingOf name)

/-- An element is as long as its two tags and its text. -/
theorem length_tagged (name text : Text) (lo : Nat) : lo + (tagged name text).length =
    behindOpening name lo + text.length + (closingOf name).length := by
  simp only [tagged, behindOpening, List.length_cons, List.length_append]
  omega

/-- An element ends with its closing tag. -/
theorem getLast?_tagged (name text : Text) : (tagged name text).getLast? = some greater :=
  List.getLast?_eq_some_iff.mpr ⟨less :: (name ++ greater :: (text ++ less :: slash :: name)),
    by simp [tagged, closingOf]⟩

/-- A tag that has only a name is complete at once. -/
theorem tagTail_greater (r : Readers) (hdrop : src.drop pos = greater :: post) (hhi : pos < hi) :
    ∃ h, tagTail r src hi pos = .ok (some ⟨[], false, pos + 1, h⟩) := by
  have hspace : skipSpace src pos hi = pos := skipSpace_eq_self (by rw [hdrop]; rfl) (by decide)
  refine ⟨Nat.lt_succ_self _, ?_⟩
  rw [tagTail]
  simp only [hspace, hhi, if_true, hdrop]
  rfl

/-- The closing tag is found behind the content. -/
theorem content_closing (r : Readers) (lo : Nat) (hname : name.isIdentifier = true)
    (hdrop : src.drop pos = closingOf name ++ post) (hhi : pos + (closingOf name).length ≤ hi) :
    ∃ h, content r src name lo hi pos =
      .ok ⟨[], closingOf name, pos + (closingOf name).length, h⟩ := by
  have hlength : (closingOf name).length = name.length + 3 := by simp [closingOf]
  rw [hlength] at hhi
  have hname' : src.drop (pos + 2) = name ++ (greater :: post) := by
    rw [← List.drop_drop, hdrop]
    simp [closingOf]
  have hclose : src.drop (pos + 2 + name.length) = greater :: post := drop_add_of_eq hname'
  have hspace : skipSpace src (pos + 2) hi = pos + 2 := by
    obtain ⟨b, rest, hcons, hb, -⟩ := exists_of_isIdentifier hname
    have hall : ∀ b : Byte, b.isIdentStart = true → b.isSpace = false :=
      forall_byte (by decide +kernel)
    exact skipSpace_eq_self (by rw [hname', hcons]; rfl) (hall b hb)
  have hend : nameEnd src (pos + 2) = pos + 2 + name.length := by
    rw [nameEnd, hname', nameLength_append hname (by simp; decide)]
  have hspace' : skipSpace src (pos + 2 + name.length) hi = pos + 2 + name.length :=
    skipSpace_eq_self (by rw [hclose]; rfl) (by decide)
  have hfound : src.slice (pos + 2) (pos + 2 + name.length) = name :=
    slice_of_drop_eq hname' rfl
  have hgreater : (src.slice (pos + 2 + name.length) hi).head? = some greater := by
    rw [Text.slice, hclose]
    cases hi' : hi - (pos + 2 + name.length) with
    | zero => omega
    | succ n => rfl
  have hslice : src.slice pos (pos + 2 + name.length + 1) = closingOf name :=
    slice_of_drop_eq hdrop (by omega)
  refine ⟨by omega, ?_⟩
  have hcons : src.drop pos = less :: slash :: (name ++ greater :: post) := by
    rw [hdrop]
    simp [closingOf]
  rw [content, if_pos (by omega), hcons]
  simp only [List.head?_cons, and_self, if_true, closingTag, hspace, hend, hspace', hfound,
    hgreater, hslice]
  congr 2
  omega

/-- Text up to the closing tag is one child. -/
theorem content_text (r : Readers) (lo : Nat) (hname : name.isIdentifier = true)
    (htext : IsMarkupText text) (hdrop : src.drop pos = text ++ (closingOf name ++ post))
    (hhi : pos + text.length + (closingOf name).length ≤ hi) :
    ∃ h, content r src name lo hi pos =
      .ok ⟨[.placed pos (pos + text.length) (.text text)], closingOf name,
        pos + text.length + (closingOf name).length, h⟩ := by
  obtain ⟨hne, hless, hbrace⟩ := htext
  obtain ⟨b, rest, rfl⟩ := List.exists_cons_of_ne_nil hne
  rw [List.mem_cons, not_or] at hless hbrace
  rw [List.length_cons] at hhi ⊢
  have hnext : src.drop (pos + 1) = rest ++ (closingOf name ++ post) := by
    rw [← List.drop_drop, hdrop]
    rfl
  have hbehind : src.drop (pos + 1 + rest.length) = closingOf name ++ post := drop_add_of_eq hnext
  have hrun : (src.slice (pos + 1) hi).takeWhile (fun b => b != less && b != openBrace) = rest := by
    have hslice : src.slice (pos + 1) hi =
        rest ++ (closingOf name ++ post).take (hi - (pos + 1) - rest.length) := by
      rw [Text.slice, hnext, List.take_append, List.take_of_length_le (by omega)]
    rw [hslice]
    refine takeWhile_append_stop (fun c hc => ?_) ?_
    · have h₁ : c ≠ less := fun e => hless.2 (e ▸ hc)
      have h₂ : c ≠ openBrace := fun e => hbrace.2 (e ▸ hc)
      simp [h₁, h₂]
    · cases hn : hi - (pos + 1) - rest.length with
      | zero => simp
      | succ n => simp [closingOf]
  have hslice : src.slice pos (pos + 1 + rest.length) = b :: rest :=
    slice_of_drop_eq hdrop (by rw [List.length_cons]; omega)
  have hclosed : pos + 1 + rest.length + (closingOf name).length ≤ hi := by omega
  obtain ⟨h, hclosing⟩ := content_closing r lo hname hbehind hclosed
  have hstop : pos + 1 + rest.length = pos + (rest.length + 1) := by omega
  refine ⟨by omega, ?_⟩
  subst hrun
  rw [content, if_pos (by omega), hdrop]
  simp only [Ne.symm hless.1, Ne.symm hbrace.1, false_and, if_false, List.cons_append, hclosing,
    hslice]
  simp only [← hstop]
  rfl

/-- Behind an opening tag without attributes, the content decides. -/
theorem element_eq (r : Readers) (hname : name.isIdentifier = true)
    (hdrop : src.drop pos = less :: (name ++ greater :: post)) (hhi : behindOpening name pos ≤ hi) :
    (∀ inner, content r src name pos hi (behindOpening name pos) = .ok inner →
      ∃ h, element r src pos hi =
        .ok (some ⟨elementAt name pos inner.stop inner.children inner.closing, inner.stop, h⟩)) ∧
    ∀ e, content r src name pos hi (behindOpening name pos) = .error e →
      element r src pos hi = .error e := by
  unfold behindOpening at *
  have hname' : src.drop (pos + 1) = name ++ greater :: post := by
    rw [← List.drop_drop, hdrop]
    rfl
  have hend : nameEnd src (pos + 1) = pos + 1 + name.length := by
    rw [nameEnd, hname', nameLength_append hname (by simp; decide)]
  have hbehind : src.drop (nameEnd src (pos + 1)) = greater :: post := by
    rw [hend]
    exact drop_add_of_eq hname'
  have hslice : src.slice (pos + 1) (nameEnd src (pos + 1)) = name := slice_of_drop_eq hname' hend
  have hpos : 0 < name.length := by
    obtain ⟨b, rest, hcons, -, -⟩ := exists_of_isIdentifier hname
    rw [hcons]
    exact Nat.succ_pos _
  have hopened : nameEnd src (pos + 1) < hi := by omega
  obtain ⟨h, htag⟩ := tagTail_greater r hbehind hopened
  -- The content is read behind the end of the name, wherever that is.
  rw [← hend]
  have helement : element r src pos hi =
      content r src name pos hi (nameEnd src (pos + 1) + 1) >>= fun inner =>
        .ok (some ⟨elementAt name pos inner.stop inner.children inner.closing, inner.stop, by
          have := inner.advances
          omega⟩) := by
    rw [element]
    simp only [hslice]
    rw [if_neg (by omega), if_neg (by omega), htag]
    have hopening : behindOpening name pos = nameEnd src (pos + 1) + 1 := by
      rw [hend]
      rfl
    simp only [elementAt, hopening]
    rfl
  rw [helement]
  constructor
  · intro inner hinner
    rw [hinner]
    exact ⟨_, rfl⟩
  · intro e he
    rw [he]
    rfl

/-- An element with nothing but text in it is read wherever it stands. -/
theorem element_tagged (r : Readers) (hname : name.isIdentifier = true) (htext : IsMarkupText text)
    (hdrop : src.drop pos = tagged name text ++ post) (hhi : pos + (tagged name text).length ≤ hi) :
    ∃ h, element r src pos hi =
      .ok (some ⟨taggedAt name text pos, pos + (tagged name text).length, h⟩) := by
  rw [length_tagged] at hhi
  have hdrop' : src.drop pos = less :: (name ++ greater :: (text ++ (closingOf name ++ post))) := by
    rw [hdrop, tagged]
    simp
  have hinner : src.drop (behindOpening name pos) = text ++ (closingOf name ++ post) := by
    rw [behindOpening, ← List.drop_drop, ← List.drop_drop, ← List.drop_drop, hdrop']
    simp
  obtain ⟨h, hcontent⟩ := content_text r pos hname htext hinner hhi
  obtain ⟨h', helement⟩ := (element_eq r hname hdrop' (by omega)).1 _ hcontent
  rw [taggedAt, length_tagged]
  exact ⟨h', helement⟩

/-- Braces that hold an expression are one child. -/
theorem content_container {rest : Text} {n : Nat} {expression : Option Ast}
    (hdrop : src.drop pos = openBrace :: rest)
    (hclose : closeTail (.group closeBrace) [] rest = some n) (hhi : pos + n < hi)
    (hexpression : containerExpression r src (pos + 1) (pos + n) = .ok expression)
    {more : Content (pos + n + 1)} (hmore : content r src name lo hi (pos + n + 1) = .ok more) :
    ∃ h, content r src name lo hi pos = .ok
      ⟨.placed pos (pos + n + 1) (.container expression) :: more.children, more.closing, more.stop,
        h⟩ := by
  have hadvances := more.advances
  refine ⟨by omega, ?_⟩
  rw [content, if_pos (by omega), hdrop]
  simp +decide only [hclose, hhi, hexpression, if_false, if_true]
  refine bind_eq_ok.mpr ⟨_, rfl, bind_eq_ok.mpr ⟨_, hmore, rfl⟩⟩

/-- The first child behind a brace ends where the search finds the end of the braces. -/
theorem children_of_content {r : Readers} {lo : Nat} {rest : Text} {inner : Content pos}
    (hdrop : src.drop pos = openBrace :: rest) (h : content r src name lo hi pos = .ok inner) :
    ∃ n expression more, closeTail (.group closeBrace) [] rest = some n ∧
      inner.children = .placed pos (pos + n + 1) (.container expression) :: more := by
  rw [content] at h
  split at h
  · rw [hdrop] at h
    simp +decide only [false_and, if_false, if_true] at h
    cases hclose : closeTail (.group closeBrace) [] rest with
    | none => simp [hclose] at h
    | some n =>
      rw [hclose] at h
      dsimp only at h
      split at h
      · simp only [bind_eq_ok, pure_eq_ok] at h
        obtain ⟨expression, -, more, -, rfl⟩ := h
        exact ⟨n, expression, more.children, rfl, rfl⟩
      · exact absurd h (by simp)
  · exact absurd h (by simp)

/-- Braces that the search finds no end of are an error. -/
theorem content_unclosed (r : Readers) (name : Text) (lo : Nat) {rest : Text}
    (hdrop : src.drop pos = openBrace :: rest) (hhi : pos < hi)
    (hclose : closeTail (.group closeBrace) [] rest = none) :
    content r src name lo hi pos = .error ⟨.unclosedContainer, pos⟩ := by
  rw [content, if_pos hhi, hdrop]
  simp +decide only [hclose, false_and, if_false, if_true]

end Tags

section Programs

variable {name text : Text}

/-- A statement with a value. -/
def statement (value : Text) : Text :=
  Text.ofString "x = " ++ value

/-- The node of the code in front of the value. -/
def statementCode : Ast :=
  .placed 0 4 (.code (Text.ofString "x = "))

/-- A statement whose value is markup is code up to the markup, and then that. -/
theorem program_statement {markup : Text} (hsrc : src = statement (less :: markup)) :
    (∀ found h, element (readers src src.length) src 4 src.length =
      .ok (some ⟨found, src.length, h⟩) → program src = .ok [statementCode, found]) ∧
    ∀ e, element (readers src src.length) src 4 src.length = .error e → program src = .error e := by
  have hbytes : Text.ofString "x = " = [0x78, 0x20, 0x3D, 0x20] := by decide
  have hdrop : src.drop 0 = Text.ofString "x = " ++ (less :: markup) := hsrc
  have hfour : src.drop 4 = less :: markup := by
    rw [hsrc, statement, hbytes]
    rfl
  have htake : src.take 4 = Text.ofString "x = " := by
    rw [hsrc, statement, hbytes]
    rfl
  have hlength : src.length = markup.length + 5 := by
    rw [hsrc, statement, hbytes]
    simp
  have hstart : markupMayStart src 4 = true := by
    rw [markupMayStart, htake]
    decide +kernel
  have hcode : opaqueCode src 0 4 = [statementCode] := by
    rw [opaqueCode, if_pos (by decide), slice_of_drop_eq hdrop (by rw [hbytes]; rfl)]
    rfl
  have hprogram : program src = codeFrom (readers src (src.length + 1)) src 0 src.length 0 4 := by
    rw [program, code, codeFrom_idle (by decide) hdrop (by simp [hbytes]; omega), hbytes]
    rfl
  rw [hprogram, codeFrom_less hfour (by omega) hstart]
  constructor
  · intro found h hread
    refine bind_eq_ok.mpr ⟨_, hread, bind_eq_ok.mpr ⟨_, codeFrom_end (Nat.le_refl _), ?_⟩⟩
    rw [hcode, opaqueCode, if_neg (Nat.lt_irrefl _)]
    rfl
  · intro e hread
    have helement : (readers src (src.length + 1)).element 4 src.length = .error e := hread
    rw [helement]
    rfl

/-- Outside braces, an element is read whatever text is in it. -/
theorem program_outside (hname : name.isIdentifier = true) (htext : IsMarkupText text) :
    program (statement (tagged name text)) = .ok [statementCode, taggedAt name text 4] := by
  obtain ⟨src, hsrc⟩ : ∃ src, src = statement (tagged name text) := ⟨_, rfl⟩
  have hdrop : src.drop 4 = tagged name text ++ [] := by
    rw [hsrc, statement, List.append_nil]
    rfl
  have hlength : src.length = 4 + (tagged name text).length := by
    rw [hsrc, statement, List.length_append]
    rfl
  obtain ⟨h, helement⟩ :=
    element_tagged (readers src src.length) hname htext hdrop (Nat.le_of_eq hlength.symm)
  rw [← hsrc]
  refine (program_statement (by rw [hsrc, tagged])).1 _ (hlength ▸ h) ?_
  rw [helement]
  simp only [hlength]

/-- The code in front of the markup in an expression. -/
def guardText : Text :=
  Text.ofString "c && "

/-- The tag around the expression. -/
def outer : Text :=
  Text.ofString "a"

/-- Markup in an expression between tags. -/
def braced (markup : Text) : Text :=
  less :: (outer ++ greater :: openBrace :: (guardText ++ markup ++ closeBrace :: closingOf outer))

/-- The code in front of the markup is passed over. -/
theorem passes_guardText : Passes guardText :=
  .inerts (List.all_eq_true.mp (by decide))

/-- An opening tag is passed over. -/
theorem passes_opening (hname : name.isIdentifier = true) :
    Passes ([less] ++ name ++ [greater]) := by
  have hinert : ∀ b ∈ name, isInert b = true := fun b hb =>
    (isInert_of_isIdentChar (isIdentChar_of_isIdentifier hname b hb)).1
  exact ((Passes.inert (by decide)).append (.inerts hinert)).append (.inert (by decide))

/-- A closing tag is passed over. -/
theorem passes_closingOf (hname : name.isIdentifier = true) : Passes (closingOf name) := by
  obtain ⟨b, rest, hcons, hb, -⟩ := exists_of_isIdentifier hname
  have hinert : ∀ b ∈ name, isInert b = true := fun b hb =>
    (isInert_of_isIdentChar (isIdentChar_of_isIdentifier hname b hb)).1
  have hslash : ∀ b : Byte, b.isIdentStart = true → b ≠ slash ∧ b ≠ star :=
    forall_byte (by decide +kernel)
  have hbehind : Passes (name ++ [greater]) := (Passes.inerts hinert).append (.inert (by decide))
  have hless : Passes [less] := .inert (by decide)
  exact hless.append (hbehind.slashed (by rw [hcons]; rfl) (hslash b hb).1 (hslash b hb).2)

/-- No quote is part of a closing tag. -/
theorem quote_not_mem_closingOf (hname : name.isIdentifier = true) {q : Byte}
    (hq : q.isQuote = true) : q ∉ closingOf name := by
  have hother : ∀ b : Byte, b = less ∨ b = slash ∨ b = greater ∨ b.isIdentChar = true →
      b.isQuote = false :=
    forall_byte (by decide +kernel)
  intro hmem
  have hcases : q = less ∨ q = slash ∨ q = greater ∨ q.isIdentChar = true := by
    simp only [closingOf, List.mem_cons, List.mem_append, List.not_mem_nil, or_false] at hmem
    rcases hmem with h | h | h | h
    · exact Or.inl h
    · exact Or.inr (Or.inl h)
    · exact Or.inr (Or.inr (Or.inr (isIdentChar_of_isIdentifier hname q h)))
    · exact Or.inr (Or.inr (Or.inl h))
  exact absurd hq (by simp [hother q hcases])

/-- An element is passed over if its text is. -/
theorem passes_tagged (hname : name.isIdentifier = true) (htext : Passes text) :
    Passes (tagged name text) := by
  have h := (passes_opening hname).append (htext.append (passes_closingOf hname))
  simpa only [tagged, List.append_assoc, List.singleton_append, List.cons_append,
    List.nil_append] using h

section Braced

variable {markup : Text} (hsrc : src = statement (braced markup))

include hsrc

/-- Where the markup, its braces and the code in them begin. -/
theorem drop_braced : src.drop 4 = braced markup ∧
    src.drop 7 = openBrace :: (guardText ++ markup ++ closeBrace :: closingOf outer) ∧
    src.drop 8 = guardText ++ markup ++ closeBrace :: closingOf outer ∧
    src.length = 18 + markup.length := by
  have hbytes : Text.ofString "x = " = [0x78, 0x20, 0x3D, 0x20] ∧ outer = [0x61] ∧
      guardText.length = 5 := by decide
  obtain ⟨hcode, houter, hguard⟩ := hbytes
  have hfour : src.drop 4 = braced markup := by
    rw [hsrc, statement, hcode]
    rfl
  have hseven : src.drop 7 =
      openBrace :: (guardText ++ markup ++ closeBrace :: closingOf outer) := by
    rw [hsrc, statement, braced, hcode, houter]
    rfl
  refine ⟨hfour, hseven, ?_, ?_⟩
  · rw [hsrc, statement, braced, hcode, houter]
    rfl
  · rw [hsrc, statement, braced, closingOf, hcode, houter]
    simp [hguard]
    omega

end Braced

/-- An element whose text has a quote that stands alone is not read inside braces. -/
theorem program_unclosed (hname : name.isIdentifier = true) {before after : Text} {q : Byte}
    (hbefore : Passes before) (hq : q.isQuote = true) (hafter : q ∉ after) :
    program (statement (braced (tagged name (before ++ q :: after)))) =
      .error ⟨.unclosedContainer, 7⟩ := by
  obtain ⟨src, hsrc⟩ : ∃ src, src = statement (braced (tagged name (before ++ q :: after))) :=
    ⟨_, rfl⟩
  obtain ⟨hfour, hseven, -, hlength⟩ := drop_braced hsrc
  have hopening : Passes (guardText ++ ([less] ++ name ++ [greater] ++ before)) :=
    passes_guardText.append ((passes_opening hname).append hbefore)
  have hunclosed : closeTail (.group closeBrace) [] (guardText ++
      tagged name (before ++ q :: after) ++ closeBrace :: closingOf outer) = none := by
    have hrest : q ∉ after ++ (closingOf name ++ closeBrace :: closingOf outer) := by
      have hclosed : closeBrace ≠ q := by
        rintro rfl
        exact absurd hq (by decide)
      simp only [List.mem_append, List.mem_cons, not_or]
      exact ⟨hafter, quote_not_mem_closingOf hname hq, hclosed.symm,
        quote_not_mem_closingOf (by decide) hq⟩
    have h := closeTail_stray_quote hopening hq hrest closeBrace []
    simpa [tagged] using h
  have hopened : 7 < src.length := by omega
  have hcontent := content_unclosed (readers src src.length) outer 4 hseven hopened hunclosed
  rw [← hsrc]
  exact (program_statement hsrc).2 _
    ((element_eq _ (by decide) hfour (Nat.le_of_lt hopened)).2 _ hcontent)

/-- An identifier with code behind it that cannot be chained to it. -/
theorem operand_guard (r : Readers) {lo hi : Nat} {post : Text}
    (hdrop : src.drop lo = guardText ++ post) (hhi : lo + 5 ≤ hi) :
    ∃ ident h, operand r src lo hi = .ok (some ⟨ident, lo + 1, h⟩) ∧
      skipSpace src (lo + 1) hi = lo + 2 := by
  have hguard : guardText = [0x63, 0x20, 0x26, 0x26, 0x20] := by decide
  rw [hguard] at hdrop
  have hnext : src.drop (lo + 1) = [0x20, 0x26, 0x26, 0x20] ++ post := by
    rw [← List.drop_drop, hdrop]
    rfl
  have hspace : skipSpace src (lo + 1) hi = lo + 2 := by
    obtain ⟨n, hn⟩ : ∃ n, hi - (lo + 1) = n + 2 := ⟨hi - (lo + 3), by omega⟩
    rw [skipSpace, Text.slice, hnext, hn]
    rfl
  refine ⟨.placed lo (lo + 1) (.ident [0x63]), by omega, ?_, hspace⟩
  rw [operand, hdrop]
  have hchain (h : lo < lo + 1) :
      chain r src lo hi (.placed lo (lo + 1) (.ident [0x63])) (lo + 1) h =
        .ok (some ⟨.placed lo (lo + 1) (.ident [0x63]), lo + 1, h⟩) := by
    rw [chain, if_pos (by omega), hnext]
    rfl
  exact hchain _

/-- In an expression, markup is found behind code that is no operand. -/
theorem expression_guarded {markup : Text} (hfirst : markup.head? = some less)
    (hlast : markup.getLast? = some greater) {lo : Nat} {post : Text}
    (hdrop : src.drop lo = guardText ++ markup ++ post)
    (hstart : markupMayStart src (lo + 5) = true) {r : Readers} {hi : Nat} {found : Ast}
    {h : lo + 5 < hi} (hread : r.element (lo + 5) hi = .ok (some ⟨found, hi, h⟩))
    (hhi : hi = lo + 5 + markup.length) :
    expression r src lo hi =
      .ok (.placed lo hi (.fragment [.placed lo (lo + 5) (.code guardText), found])) := by
  have hguard : guardText = [0x63, 0x20, 0x26, 0x26, 0x20] := by decide
  have hfive : guardText.length = 5 := by rw [hguard]; rfl
  have hdrop' : src.drop lo = guardText ++ (markup ++ post) := by
    rw [hdrop, List.append_assoc]
  have hrange : shrink src lo hi = ⟨lo, hi⟩ := by
    obtain ⟨init, hends⟩ := List.getLast?_eq_some_iff.mp hlast
    refine @shrink_eq src [] (guardText ++ markup) post lo hi hdrop ?_ (by simp)
      ⟨0x63, _, by rw [hguard]; rfl, by decide⟩
      ⟨greater, guardText ++ init, by rw [hends, List.append_assoc], by decide⟩
    rw [List.length_append, hfive, hhi, List.length_nil]
    omega
  obtain ⟨ident, h', hoperand, hspace⟩ := operand_guard r hdrop' (Nat.le_of_lt h)
  obtain ⟨rest, hless⟩ : ∃ rest, src.drop (lo + 5) = less :: rest := by
    obtain ⟨rest, rfl⟩ := List.head?_eq_some_iff.mp hfirst
    rw [← hfive]
    exact ⟨rest ++ post, drop_add_of_eq hdrop'⟩
  have hcode : opaqueCode src lo (lo + 5) = [.placed lo (lo + 5) (.code guardText)] := by
    rw [opaqueCode, if_pos (by omega), slice_of_drop_eq hdrop' (by rw [hfive])]
  have hparts : code r src lo hi = .ok [.placed lo (lo + 5) (.code guardText), found] := by
    rw [code, codeFrom_idle (by decide) hdrop' (by omega), hfive, codeFrom_less hless h hstart,
      hread]
    refine bind_eq_ok.mpr ⟨_, rfl, bind_eq_ok.mpr ⟨_, codeFrom_end (Nat.le_refl _), ?_⟩⟩
    rw [hcode, opaqueCode, if_neg (Nat.lt_irrefl _)]
    rfl
  rw [expression, hrange]
  dsimp only
  rw [if_neg (by omega)]
  refine bind_eq_ok.mpr ⟨_, hoperand, ?_⟩
  dsimp only
  rw [hspace, if_neg (by omega)]
  exact bind_eq_ok.mpr ⟨_, hparts, rfl⟩

/-- What is read of the element around an expression with `found` in it, which takes up `n`
bytes. -/
def bracedAt (n : Nat) (found : Ast) : Ast :=
  elementAt outer 4 (18 + n)
    [.placed 7 (14 + n) (.container (some
      (.placed 8 (13 + n) (.fragment [.placed 8 13 (.code guardText), found]))))]
    (closingOf outer)

/-- Markup is read inside braces if the search finds their end behind it. -/
theorem program_braced {markup : Text} (hfirst : markup.head? = some less)
    (hlast : markup.getLast? = some greater) (hsrc : src = statement (braced markup))
    (hclose : matching src 7 = some (13 + markup.length)) {found : Ast}
    (hread : ∃ h, (readers src src.length).element 13 (13 + markup.length) =
      .ok (some ⟨found, 13 + markup.length, h⟩)) :
    program src = .ok [statementCode, bracedAt markup.length found] := by
  obtain ⟨hfour, hseven, height, hlength⟩ := drop_braced hsrc
  have hguard : guardText = [0x63, 0x20, 0x26, 0x26, 0x20] := by decide
  have hheld : (guardText ++ markup).length = markup.length + 5 := by
    rw [hguard]
    simp
  have hclose' : closeTail (.group closeBrace) []
      (guardText ++ markup ++ closeBrace :: closingOf outer) = some (markup.length + 6) := by
    rw [matching_of_closer hseven rfl, Option.map_eq_some_iff] at hclose
    obtain ⟨n, hn, hstop⟩ := hclose
    rw [hn, Option.some.injEq]
    omega
  have hstart : markupMayStart src 13 = true := by
    have htake : src.take 13 = Text.ofString "x = <a>\x7bc && " := by
      have hbytes : Text.ofString "x = " = [0x78, 0x20, 0x3D, 0x20] ∧ outer = [0x61] ∧
          Text.ofString "x = <a>\x7bc && " = [0x78, 0x20, 0x3D, 0x20, 0x3C, 0x61, 0x3E, 0x7B, 0x63,
            0x20, 0x26, 0x26, 0x20] := by decide
      rw [hsrc, statement, braced, hbytes.1, hbytes.2.1, hbytes.2.2, hguard]
      rfl
    rw [markupMayStart, htake]
    decide +kernel
  obtain ⟨k, hk⟩ : ∃ k, src.length = k + 1 := ⟨17 + markup.length, by omega⟩
  have hslice : src.slice 8 (7 + (markup.length + 6)) = guardText ++ markup :=
    slice_of_drop_eq height (by rw [hheld]; omega)
  have hbrace : 7 + (markup.length + 6) = 13 + markup.length := by omega
  have hexpression : containerExpression (readers src src.length) src 8 (7 + (markup.length + 6)) =
      .ok (some (.placed 8 (7 + (markup.length + 6)) (.fragment
        [.placed 8 13 (.code guardText), found]))) := by
    have hfilled : (guardText ++ markup).isBlank = false := by
      rw [hguard]
      exact @isBlank_append_eq_false [] _ (by simp) (by simp; decide)
    rw [containerExpression, hslice, hfilled, if_neg (by decide), hbrace, hk]
    rw [hk] at hread
    obtain ⟨h, hread⟩ := hread
    exact map_eq_ok.mpr ⟨_, expression_guarded hfirst hlast height hstart hread rfl, rfl⟩
  have hbehind : src.drop (7 + (markup.length + 6) + 1) = closingOf outer ++ [] := by
    have hafter := drop_add_of_eq height
    rw [hheld] at hafter
    have hpos : 7 + (markup.length + 6) = 8 + (markup.length + 5) := by omega
    rw [hpos, ← List.drop_drop, hafter, List.append_nil]
    rfl
  have hfour' : (closingOf outer).length = 4 := by decide
  have hend : 7 + (markup.length + 6) + 1 + (closingOf outer).length = src.length := by
    omega
  have hopened : 7 ≤ src.length := by omega
  obtain ⟨h, hclosing⟩ :=
    content_closing (readers src src.length) 4 (by decide) hbehind (Nat.le_of_eq hend)
  obtain ⟨h', hcontent⟩ := content_container hseven hclose' (by omega) hexpression hclosing
  obtain ⟨h'', helement⟩ := (element_eq _ (by decide) hfour hopened).1 _ hcontent
  dsimp only at helement
  simp only [hend] at helement
  have hnext : 13 + markup.length + 1 = 14 + markup.length := by omega
  rw [(program_statement hsrc).1 _ _ helement, hlength, hbrace, hnext, bracedAt]

/-- Inside braces, an element is read as outside if the search for the end of the braces
passes over its text. -/
theorem program_inside (hname : name.isIdentifier = true) (htext : IsMarkupText text)
    (hpasses : Passes text) :
    program (statement (braced (tagged name text))) =
      .ok [statementCode, bracedAt (tagged name text).length (taggedAt name text 13)] := by
  obtain ⟨src, hsrc⟩ : ∃ src, src = statement (braced (tagged name text)) := ⟨_, rfl⟩
  obtain ⟨-, hseven, height, hlength⟩ := drop_braced hsrc
  have hclose : matching src 7 = some (13 + (tagged name text).length) := by
    have hpassed := passes_guardText.append (passes_tagged hname hpasses)
    have hfive : guardText.length = 5 := by decide
    rw [matching_of_closer hseven rfl, hpassed.matching_eq (b := openBrace) rfl, List.length_append,
      hfive, Option.map_some, Option.some.injEq]
    omega
  have hmarkup : src.drop 13 = tagged name text ++ closeBrace :: closingOf outer :=
    @drop_add_of_eq _ guardText _ 8 (by rw [height, List.append_assoc])
  obtain ⟨k, hk⟩ : ∃ k, src.length = k + 1 := ⟨17 + (tagged name text).length, by omega⟩
  obtain ⟨h, helement⟩ := element_tagged (readers src k) hname htext hmarkup (Nat.le_refl _)
  rw [← hsrc]
  refine program_braced rfl (getLast?_tagged name text) hsrc hclose ⟨h, ?_⟩
  rw [hk]
  exact helement

/-- Not every text that is an element outside braces is read inside them: one with an
apostrophe as its text is not. -/
theorem apostrophe_not_read_inside :
    ¬ ∀ (markup : Text) (element opening : Ast) (children : List Ast) (closing : Option Text),
      element = .placed 4 (4 + markup.length) (.element opening children closing) →
      program (Text.ofString "x = " ++ markup) =
        .ok [.placed 0 4 (.code (Text.ofString "x = ")), element] →
      ∃ body, program (Text.ofString "x = <a>\x7bc && " ++ markup ++ Text.ofString "\x7d</a>") =
        .ok body := by
  intro h
  have houtside := @program_outside (Text.ofString "b") (Text.ofString "'") (by decide) (by decide)
  obtain ⟨body, hbody⟩ := h (Text.ofString "<b>'</b>") _ _ _ _ rfl houtside
  have hinside := @program_unclosed (Text.ofString "b") (by decide) [] [] apostrophe .nil
    (by decide) (by decide)
  have hsame : statement (braced (tagged (Text.ofString "b") ([] ++ apostrophe :: []))) =
      Text.ofString "x = <a>\x7bc && " ++ Text.ofString "<b>'</b>" ++ Text.ofString "\x7d</a>" := by
    decide
  rw [← hsame, hinside] at hbody
  exact absurd hbody (by simp)

end Programs

end Read

end JsxStyle
