import JsxStyle.Proofs.Comments
import JsxStyle.Proofs.Enclosed

/-!
# Attribute strings read back

A string that becomes the value of an attribute is written in one of two ways.
Where one of the two quotes does not occur in it, it stands between two of those
as it is, and the reader of tags, which knows no escapes, takes what stands there.
Where both occur, it is written as a string literal in braces, and the reader
looks for the end of the braces first: the literal is passed over and cooked, and
the same value comes out, unless a line feed ends the literal before its quote.
Then the braces have no end, there is no attribute and no tag, and what was
written is code.

* `attributeString_cases`: the two ways of writing a string;
* `element_tag`: a tag with one attribute, from what is read of the attribute;
* `first_of_codeFrom`: a range of code does not begin with an element that is
  found further on;
* `attribute_read_back`: which strings are read back as they were written.
-/

namespace JsxStyle

open Ascii Scan

namespace Text

/-- Whether a text is the name of a tag or of an attribute. -/
def isName : Text → Bool
  | [] => false
  | b :: rest => b.isIdentStart && rest.all Byte.isNameChar

/-- A name begins as an identifier does and goes on with name bytes. -/
theorem exists_of_isName {name : Text} (h : name.isName = true) :
    ∃ b rest, name = b :: rest ∧ b.isIdentStart = true ∧ ∀ c ∈ rest, c.isNameChar = true := by
  cases name with
  | nil => exact absurd h (by simp [isName])
  | cons b rest =>
    rw [isName, Bool.and_eq_true, List.all_eq_true] at h
    exact ⟨b, rest, rfl, h.1, h.2⟩

/-- No name is empty. -/
theorem length_pos_of_isName {name : Text} (h : name.isName = true) : 0 < name.length := by
  obtain ⟨b, rest, rfl, -, -⟩ := exists_of_isName h
  exact Nat.succ_pos _

/-- A character of one byte occurs where its byte does. -/
theorem hasChar_iff {c : Char} {q : Byte} (hq : ofChar c = [q]) (t : Text) :
    t.hasChar c = true ↔ q ∈ t := by
  rw [hasChar, hq]
  induction t with
  | nil => simp [hasWord]
  | cons b rest ih =>
    rw [hasWord, Bool.or_eq_true, ih, List.mem_cons, List.isPrefixOf_iff_prefix,
      List.cons_prefix_cons]
    simp

end Text

/-- A string stands between quotes that it does not contain, or in braces. -/
theorem attributeString_cases (value : Text) {delimiter : Char}
    (hdelimiter : delimiter = '"' ∨ delimiter = '\'') :
    (∃ q : Byte, q.isQuote = true ∧ q ∉ value ∧
      attributeString value delimiter = q :: (value ++ [q])) ∨
    (quote ∈ value ∧ apostrophe ∈ value ∧
      attributeString value delimiter = openBrace :: (Text.quoted '"' value ++ [closeBrace])) := by
  have hdouble := Text.hasChar_iff (c := '"') (q := quote) (by decide) value
  have hsingle := Text.hasChar_iff (c := '\'') (q := apostrophe) (by decide) value
  have hbytes : Text.ofChar '"' = [quote] ∧ Text.ofChar '\'' = [apostrophe] := by decide
  by_cases hq : quote ∈ value <;> by_cases ha : apostrophe ∈ value
  · refine .inr ⟨hq, ha, ?_⟩
    rcases hdelimiter with rfl | rfl <;>
      simp [attributeString, hdouble.mpr hq, hsingle.mpr ha]
  · refine .inl ⟨apostrophe, by decide, ha, ?_⟩
    rw [← hsingle, Bool.not_eq_true] at ha
    rcases hdelimiter with rfl | rfl <;>
      simp [attributeString, hdouble.mpr hq, ha, hbytes]
  · refine .inl ⟨quote, by decide, hq, ?_⟩
    rw [← hdouble, Bool.not_eq_true] at hq
    rcases hdelimiter with rfl | rfl <;>
      simp [attributeString, hsingle.mpr ha, hq, hbytes]
  · rcases hdelimiter with rfl | rfl
    · refine .inl ⟨quote, by decide, hq, ?_⟩
      rw [← hdouble, Bool.not_eq_true] at hq
      simp [attributeString, hq, hbytes]
    · refine .inl ⟨apostrophe, by decide, ha, ?_⟩
      rw [← hsingle, Bool.not_eq_true] at ha
      simp [attributeString, ha, hbytes]

namespace Scan

/-- A line feed in a value ends its literal before the quote behind it. -/
theorem stringTail_escape_newline {delimiter : Char} {q : Byte} (hq : Text.ofChar delimiter = [q])
    (hquote : q.isQuote = true) {value : Text} (hline : newline ∈ value) (post : Text) :
    stringTail q (Text.escape delimiter value ++ post) = none := by
  have hplain : newline ≠ backslash ∧ newline ≠ q :=
    ⟨by decide, by rintro rfl; exact absurd hquote (by decide)⟩
  induction value with
  | nil => exact absurd hline List.not_mem_nil
  | cons b rest ih =>
    rw [Text.escape_cons hq]
    rcases List.mem_cons.mp hline with rfl | hrest
    · rw [if_neg (not_or.mpr hplain), List.cons_append, stringTail_cons hplain.1, if_pos rfl]
    · split
      case isTrue =>
        rw [List.cons_append, List.cons_append, stringTail, if_pos rfl, ih hrest]
        rfl
      case isFalse hb =>
        rw [not_or] at hb
        rw [List.cons_append, stringTail_cons hb.1, if_neg hb.2, ih hrest]
        split <;> rfl

end Scan

namespace Read

variable {r : Readers} {src : Text}

section Attributes

variable {name post : Text} {b : Byte} {lo hi nameStop : Nat}

/-- The value of an attribute stands behind the equals sign. -/
theorem value_behind (hdrop : src.drop nameStop = equals :: b :: post) (hb : b.isSpace = false)
    (hhi : nameStop + 1 < hi) :
    skipSpace src nameStop hi = nameStop ∧ (src.slice nameStop hi).head? = some equals ∧
      skipSpace src (nameStop + 1) hi = nameStop + 1 ∧
      src.drop (nameStop + 1) = b :: post ∧
      src.slice (nameStop + 1) hi = b :: post.take (hi - (nameStop + 2)) := by
  have hvalue : src.drop (nameStop + 1) = b :: post := by
    rw [← List.drop_drop, hdrop]
    rfl
  obtain ⟨n, hn⟩ : ∃ n, hi = nameStop + 2 + n := ⟨hi - (nameStop + 2), by omega⟩
  refine ⟨skipSpace_eq_self (by rw [hdrop]; rfl) (by decide), ?_,
    skipSpace_eq_self (by rw [hvalue]; rfl) hb, hvalue, ?_⟩
  · rw [Text.slice, hdrop, show hi - nameStop = n + 2 by omega]
    rfl
  · rw [Text.slice, hvalue, show hi - (nameStop + 1) = n + 1 by omega, List.take_succ_cons]
    congr 2
    omega

/-- An attribute whose value is between quotes. -/
theorem attributeAt_quoted (r : Readers) {value : Text} {q : Byte} (hq : q.isQuote = true)
    (hvalue : q ∉ value) (hname : src.slice lo nameStop = name)
    (hdrop : src.drop nameStop = equals :: q :: (value ++ q :: post))
    (hhi : nameStop + value.length + 3 ≤ hi) (h : lo < nameStop) :
    ∃ h', attributeAt r src lo nameStop hi h =
      .ok (some ⟨.placed lo (nameStop + value.length + 3) (.attr name (some
        (.placed (nameStop + 1) (nameStop + value.length + 3) (.str value (Char.ofNat q.toNat))))),
        nameStop + value.length + 3, h'⟩) := by
  have hspace : ∀ q : Byte, q.isQuote = true → q.isSpace = false := forall_byte (by decide +kernel)
  obtain ⟨heq, hequals, hstart, -, hslice⟩ :=
    value_behind hdrop (hspace q hq) (show nameStop + 1 < hi by omega)
  have hfind : ((value ++ q :: post).take (hi - (nameStop + 2))).findIdx? (· == q) =
      some value.length := by
    obtain ⟨n, hn⟩ : ∃ n, hi - (nameStop + 2) = value.length + (n + 1) :=
      ⟨hi - (nameStop + value.length + 3), by omega⟩
    have hnone : value.findIdx? (· == q) = none :=
      List.findIdx?_eq_none_iff.mpr fun b hb => beq_eq_false_iff_ne.mpr fun e => hvalue (e ▸ hb)
    rw [hn, List.take_length_add_append, List.findIdx?_append, hnone, List.take_succ_cons,
      List.findIdx?_cons, if_pos (beq_self_eq_true q)]
    simp
  have hstop : nameStop + 1 + value.length + 2 = nameStop + value.length + 3 := by omega
  have htake : ((value ++ q :: post).take (hi - (nameStop + 2))).take value.length = value := by
    rw [List.take_take, Nat.min_eq_left (by omega), List.take_left]
  refine ⟨by omega, ?_⟩
  rw [attributeAt]
  simp only [heq, hequals, if_true, hstart, hslice, hq, hfind, hname, hstop, htake]
  rfl

/-- An attribute whose value is in braces. -/
theorem attributeAt_braced {n : Nat} {expression : Option Ast}
    (hname : src.slice lo nameStop = name) (hdrop : src.drop nameStop = equals :: openBrace :: post)
    (hclose : closeTail (.group closeBrace) [] post = some n) (hhi : nameStop + 1 + n < hi)
    (hexpression :
      containerExpression r src (nameStop + 2) (nameStop + 1 + n) = .ok expression)
    (h : lo < nameStop) :
    ∃ h', attributeAt r src lo nameStop hi h =
      .ok (some ⟨.placed lo (nameStop + 1 + n + 1) (.attr name (some
        (.placed (nameStop + 1) (nameStop + 1 + n + 1) (.container expression)))),
        nameStop + 1 + n + 1, h'⟩) := by
  obtain ⟨heq, hequals, hstart, hbrace, hslice⟩ :=
    value_behind hdrop (by decide) (show nameStop + 1 < hi by omega)
  have hinside : src.drop (nameStop + 1 + 1) = post := by
    rw [← List.drop_drop, hbrace]
    rfl
  refine ⟨by omega, ?_⟩
  rw [attributeAt]
  simp +decide only [heq, hequals, if_true, if_false, hstart, hslice, hname, hinside, hclose, hhi]
  exact bind_eq_ok.mpr ⟨expression, hexpression, rfl⟩

/-- Braces without an end are no value, and there is no attribute. -/
theorem attributeAt_unclosed (r : Readers) (hdrop : src.drop nameStop = equals :: openBrace :: post)
    (hclose : closeTail (.group closeBrace) [] post = none) (hhi : nameStop + 1 < hi)
    (h : lo < nameStop) : attributeAt r src lo nameStop hi h = .ok none := by
  obtain ⟨heq, hequals, hstart, hbrace, hslice⟩ := value_behind hdrop (by decide) hhi
  have hinside : src.drop (nameStop + 1 + 1) = post := by
    rw [← List.drop_drop, hbrace]
    rfl
  rw [attributeAt]
  simp +decide only [heq, hequals, if_true, if_false, hstart, hslice, hinside, hclose]
  rfl

/-- A tag is complete behind the attribute that nothing else follows. -/
theorem tagTail_closed (r : Readers) {pos : Nat}
    (hdrop : src.drop pos = space :: slash :: greater :: post) (hhi : pos + 3 ≤ hi) :
    ∃ h, tagTail r src hi pos = .ok (some ⟨[], true, pos + 3, h⟩) := by
  have hspace : skipSpace src pos hi = pos + 1 := by
    rw [skipSpace, Text.slice, hdrop, show hi - pos = hi - (pos + 3) + 3 by omega]
    rfl
  have hslash : src.drop (pos + 1) = slash :: greater :: post := by
    rw [← List.drop_drop, hdrop]
    rfl
  refine ⟨by omega, ?_⟩
  rw [tagTail]
  simp only [hspace, show pos + 1 < hi by omega, if_true, hslash, List.head?_cons, and_self]
  rfl

/-- A tag goes on behind an attribute if there is one. -/
theorem tagTail_attribute (r : Readers) {pos here : Nat} (hname : name.isName = true)
    (hhere : skipSpace src pos hi = here) (hhi : here < hi)
    (hdrop : src.drop here = name ++ equals :: post) (hstop : nameStop = here + name.length)
    (h : here < nameStop) :
    (∀ attr tail, attributeAt r src here nameStop hi h = .ok (some attr) →
      tagTail r src hi attr.stop = .ok (some tail) →
      ∃ h', tagTail r src hi pos =
        .ok (some ⟨attr.ast :: tail.attributes, tail.selfClosing, tail.stop, h'⟩)) ∧
    (attributeAt r src here nameStop hi h = .ok none → tagTail r src hi pos = .ok none) := by
  obtain ⟨b, rest, rfl, hb, hrest⟩ := Text.exists_of_isName hname
  have hother : ∀ b : Byte, b.isIdentStart = true → b ≠ slash ∧ b ≠ greater ∧ b ≠ openBrace :=
    forall_byte (by decide +kernel)
  obtain ⟨hslash, hgreater, hbrace⟩ := hother b hb
  have hrun : (rest ++ equals :: post).takeWhile Byte.isNameChar = rest :=
    takeWhile_append_stop hrest (by simp; decide)
  rw [List.cons_append] at hdrop
  rw [List.length_cons] at hstop
  obtain rfl : nameStop = here + 1 + rest.length := by omega
  have hle := le_skipSpace src pos hi
  subst hhere
  constructor
  · intro attr tail hattr htail
    have hattr' := attr.advances
    have htail' := tail.advances
    refine ⟨by omega, ?_⟩
    rw [tagTail]
    simp only [hhi, if_true, hdrop, hslash, hgreater, hbrace, false_and, if_false, hb, hrun]
    exact bind_eq_ok.mpr ⟨_, hattr, bind_eq_ok.mpr ⟨_, htail, rfl⟩⟩
  · intro hattr
    rw [tagTail]
    simp only [hhi, if_true, hdrop, hslash, hgreater, hbrace, false_and, if_false, hb, hrun]
    exact bind_eq_ok.mpr ⟨_, hattr, rfl⟩

/-- The tag that is written around an attribute. -/
def tagWith (attr : Text) : Text :=
  Text.ofString "<x " ++ attr ++ Text.ofString " />"

/-- What is to be read of a tag around an attribute. -/
def soleAttribute (name : Text) (value : Ast) : Ast :=
  .made (.element
    (.made (.opening (Text.ofString "x") [.made (.attr name (some value))] true)) [] none)

/-- Where the parts of a tag around an attribute stand. -/
theorem parts_of_tagWith {written : Text} (hsrc : src = tagWith (name ++ equals :: written)) :
    src.drop 1 = Text.ofString "x" ++
        space :: (name ++ equals :: (written ++ [space, slash, greater])) ∧
      src.drop 3 = name ++ equals :: (written ++ [space, slash, greater]) ∧
      src.drop (3 + name.length) = equals :: (written ++ [space, slash, greater]) ∧
      src.length = name.length + written.length + 7 := by
  have hbytes : Text.ofString "<x " = [less, 0x78, space] ∧
      Text.ofString " />" = [space, slash, greater] ∧ Text.ofString "x" = [0x78] := by decide
  have hwhole : src = less :: 0x78 :: space ::
      (name ++ equals :: (written ++ [space, slash, greater])) := by
    rw [hsrc, tagWith, hbytes.1, hbytes.2.1]
    simp
  have hname : src.drop 3 = name ++ equals :: (written ++ [space, slash, greater]) := by
    rw [hwhole]
    rfl
  refine ⟨by rw [hwhole, hbytes.2.2]; rfl, hname, drop_add_of_eq hname, ?_⟩
  rw [hwhole]
  simp
  omega

/-- A tag with one attribute is an element or none as there is an attribute or none. -/
theorem element_tag (r : Readers) {written : Text} (hname : name.isName = true)
    (hsrc : src = tagWith (name ++ equals :: written)) (hstop : nameStop = 3 + name.length)
    (h : 3 < nameStop) :
    (∀ value stop h', attributeAt r src 3 nameStop src.length h =
        .ok (some ⟨.placed 3 stop (.attr name (some value)), stop, h'⟩) →
      stop + 3 = src.length →
      ∃ element h'', Read.element r src 0 src.length = .ok (some ⟨element, src.length, h''⟩) ∧
        element.unplaced = soleAttribute name value.unplaced) ∧
    (attributeAt r src 3 nameStop src.length h = .ok none →
      Read.element r src 0 src.length = .ok none) := by
  obtain ⟨hopen, hname', hvalue, hlength⟩ := parts_of_tagWith hsrc
  have hend : nameEnd src (0 + 1) = 2 := by
    rw [nameEnd, hopen, nameLength_append (by decide) (by simp; decide)]
    rfl
  have hspace : skipSpace src (nameEnd src (0 + 1)) src.length = 3 := by
    have hbehind : src.drop 2 = space :: (name ++ equals :: (written ++ [space, slash, greater])) :=
      drop_add_of_eq (u := Text.ofString "x") hopen
    obtain ⟨b, rest, hcons, hb, -⟩ := Text.exists_of_isName hname
    have hall : ∀ b : Byte, b.isIdentStart = true → b.isSpace = false :=
      forall_byte (by decide +kernel)
    rw [hend, skipSpace, Text.slice, hbehind, hcons, hlength,
      show name.length + written.length + 7 - 2 = name.length + written.length + 3 + 2 by omega]
    simp [hall b hb, show space.isSpace = true from rfl]
  have hslice : src.slice (0 + 1) (nameEnd src (0 + 1)) = Text.ofString "x" :=
    slice_of_drop_eq hopen (by rw [hend]; rfl)
  obtain ⟨hsome, hnone⟩ := tagTail_attribute r hname hspace (by omega) hname' hstop h
  constructor
  · intro value stop h' hattr hlast
    have hclosing : src.drop stop = [space, slash, greater] := by
      have hbehind := drop_add_of_eq (u := equals :: written) hvalue
      rw [← hbehind]
      congr 1
      simp
      omega
    obtain ⟨_, htail⟩ := tagTail_closed r hclosing (Nat.le_of_eq hlast)
    obtain ⟨_, htag⟩ := hsome _ _ hattr htail
    refine ⟨.placed 0 src.length (.element (.placed 0 src.length
      (.opening (Text.ofString "x") [.placed 3 stop (.attr name (some value))] true)) [] none),
      by omega, ?_, ?_⟩
    · rw [Read.element]
      simp only [hslice]
      rw [if_neg (by omega), if_neg (by omega)]
      refine bind_eq_ok.mpr ⟨_, htag, ?_⟩
      simp only [hlast]
      rfl
    · simp [soleAttribute, Ast.placed, Ast.made, Ast.unplaced_node, Kind.map]
  · intro hattr
    rw [Read.element, if_neg (by omega), if_neg (by omega)]
    exact bind_eq_ok.mpr ⟨_, hnone hattr, rfl⟩

/-- Code that begins with something else does not begin with an element. -/
theorem first_of_codeFrom {flushed i : Nat} {as : List Ast}
    (h : codeFrom r src lo hi flushed i = .ok as) (hi' : flushed < i) (hhi : flushed < hi) :
    ∃ a ∈ as.head?, a.kind.form ≠ .element := by
  have hopaque {mid : Nat} (hmid : flushed < mid) (more : List Ast) :
      ∃ a ∈ (opaqueCode src flushed mid ++ more).head?, a.kind.form ≠ .element := by
    rw [opaqueCode, if_pos hmid]
    exact ⟨_, rfl, Form.noConfusion⟩
  replace h := codeTrace h
  induction h with
  | done => simpa using hopaque hhi []
  | pass _ hj _ ih => exact ih (by omega) hhi hopaque
  | template _ _ _ hfound =>
    -- A tag may begin where the code does, and then the template comes first.
    rw [opaqueCode]
    split
    · exact ⟨_, rfl, Form.noConfusion⟩
    · exact ⟨_, rfl, by rw [form_taggedTemplate hfound]; decide⟩
  | importing | element => exact hopaque hi' _

/-- A program is the tag that it is written as, if what is in the tag is an attribute; and
if it is none, the program is not one element. -/
theorem program_tag {written : Text} (hname : name.isName = true)
    (hsrc : src = tagWith (name ++ equals :: written)) (hstop : nameStop = 3 + name.length)
    (h : 3 < nameStop) :
    (∀ value stop h', attributeAt (readers src src.length) src 3 nameStop src.length h =
        .ok (some ⟨.placed 3 stop (.attr name (some value)), stop, h'⟩) →
      stop + 3 = src.length →
      ∃ element, program src = .ok [element] ∧
        element.unplaced = soleAttribute name value.unplaced) ∧
    (attributeAt (readers src src.length) src 3 nameStop src.length h = .ok none →
      ∀ element, program src = .ok [element] → element.kind.form ≠ .element) := by
  have hbytes : Text.ofString "<x " = [less, 0x78, space] := by decide
  obtain ⟨rest, hdrop⟩ : ∃ rest, src.drop 0 = less :: rest := by
    rw [hsrc, tagWith, hbytes]
    exact ⟨_, rfl⟩
  have hlength : 0 < src.length := by
    rw [← List.drop_zero (l := src), hdrop]
    exact Nat.succ_pos _
  have hmarkup : markupMayStart src 0 = true := by
    rw [markupMayStart, List.take_zero]
    rfl
  obtain ⟨hsome, hnone⟩ := element_tag (readers src src.length) hname hsrc hstop h
  constructor
  · intro value stop h' hattr hlast
    obtain ⟨element, _, helement, hunplaced⟩ := hsome value stop h' hattr hlast
    refine ⟨element, ?_, hunplaced⟩
    rw [program, code, codeFrom_less hdrop hlength hmarkup]
    refine bind_eq_ok.mpr ⟨_, helement, bind_eq_ok.mpr ⟨_, codeFrom_end (Nat.le_refl _), ?_⟩⟩
    rw [opaqueCode, opaqueCode, if_neg (Nat.lt_irrefl _), if_neg (Nat.lt_irrefl _)]
    rfl
  · intro hattr element hread
    rw [program, code, codeFrom_less hdrop hlength hmarkup] at hread
    obtain ⟨found, hfound, hread⟩ := bind_eq_ok.mp hread
    obtain rfl : none = found := Except.ok.inj ((hnone hattr).symm.trans hfound)
    obtain ⟨_, hhead, hform⟩ := first_of_codeFrom hread Nat.zero_lt_one hlength
    obtain rfl := Option.some.inj hhead
    exact hform

/-- An expression that holds a string with this value. -/
def HoldsString (value : Text) (a : Ast) : Prop :=
  ∃ delimiter, a = .made (.str value delimiter) ∨
    a = .made (.container (some (.made (.str value delimiter))))

/-- Whether a tag around what is written for a string as the value of an attribute is read as an
element with that attribute and that value. -/
def ReadsBack (name value written : Text) : Prop :=
  ∃ element stored, program (tagWith (name ++ equals :: written)) = .ok [element] ∧
    element.unplaced = soleAttribute name stored ∧ HoldsString value stored

/-- A value is read back between quotes that it does not contain. -/
theorem readsBack_quoted {value : Text} {q : Byte} (hname : name.isName = true)
    (hq : q.isQuote = true) (hvalue : q ∉ value) : ReadsBack name value (q :: (value ++ [q])) := by
  obtain ⟨src, hsrc⟩ : ∃ src, src = tagWith (name ++ equals :: q :: (value ++ [q])) := ⟨_, rfl⟩
  obtain ⟨-, hname', hequals, hlength⟩ := parts_of_tagWith hsrc
  simp only [List.length_cons, List.length_append, List.length_nil] at hlength
  have hstart : 3 < 3 + name.length := Nat.lt_add_of_pos_right (Text.length_pos_of_isName hname)
  have hbehind : src.drop (3 + name.length) =
      equals :: q :: (value ++ q :: [space, slash, greater]) := by
    rw [hequals]
    simp
  obtain ⟨_, hattr⟩ := attributeAt_quoted (readers src src.length) hq hvalue
    (slice_of_drop_eq hname' rfl) hbehind
    (show 3 + name.length + value.length + 3 ≤ src.length by omega) hstart
  obtain ⟨element, hread, hunplaced⟩ :=
    (program_tag hname hsrc rfl hstart).1 _ _ _ hattr (by omega)
  exact ⟨element, _, hsrc ▸ hread, hunplaced, _, .inl (Ast.unplaced_node ..)⟩

/-- A value without line feeds is read back as a string between braces. -/
theorem readsBack_braced {value : Text} (hname : name.isName = true) (hline : newline ∉ value) :
    ReadsBack name value (openBrace :: (Text.quoted '"' value ++ [closeBrace])) := by
  obtain ⟨src, hsrc⟩ :
      ∃ src, src =
        tagWith (name ++ equals :: openBrace :: (Text.quoted '"' value ++ [closeBrace])) :=
    ⟨_, rfl⟩
  obtain ⟨-, hname', hequals, hlength⟩ := parts_of_tagWith hsrc
  simp only [List.length_cons, List.length_append, List.length_nil] at hlength
  have hstart : 3 < 3 + name.length := Nat.lt_add_of_pos_right (Text.length_pos_of_isName hname)
  have hbehind : src.drop (3 + name.length) = [equals, openBrace] ++
      (Text.quoted '"' value ++ closeBrace :: [space, slash, greater]) := by
    rw [hequals]
    simp
  have hinside : src.drop (3 + name.length + 2) =
      Text.quoted '"' value ++ closeBrace :: [space, slash, greater] := drop_add_of_eq hbehind
  have hpasses : Passes (Text.quoted '"' value) :=
    .quoted (by decide) (q := quote) (by decide) hline
  have hclose := hpasses.matching_eq (b := openBrace) rfl [space, slash, greater]
  have hfilled : (Text.quoted '"' value).isBlank = false :=
    @isBlank_append_eq_false [] (Text.quoted '"' value) (by simp) rfl
  have hstr : (Ast.made (.str value '"')).Understood := .str hline (.inl rfl)
  obtain ⟨b, hb, hunplaced⟩ := expression_text src src.length _
    ⟨3 + name.length + 2, 3 + name.length + 2 + (Text.quoted '"' value).length⟩ hstr
    (by rw [Ast.text_str]; omega) ⟨[], _, hinside, rfl, by simp, by simp; decide⟩
  have hend : 3 + name.length + 1 + ((Text.quoted '"' value).length + 1) =
      3 + name.length + 2 + (Text.quoted '"' value).length := by omega
  have hexpression : containerExpression (readers src src.length) src (3 + name.length + 2)
      (3 + name.length + 1 + ((Text.quoted '"' value).length + 1)) = .ok (some b) := by
    rw [containerExpression, slice_of_drop_eq hinside hend, hfilled, if_neg (by decide), hend]
    exact map_eq_ok.mpr ⟨b, hb, rfl⟩
  obtain ⟨_, hattr⟩ := attributeAt_braced (slice_of_drop_eq hname' rfl) hbehind hclose
    (show 3 + name.length + 1 + ((Text.quoted '"' value).length + 1) < src.length by omega)
    hexpression hstart
  obtain ⟨element, hread, hunplaced'⟩ :=
    (program_tag hname hsrc rfl hstart).1 _ _ _ hattr (by omega)
  refine ⟨element, _, hsrc ▸ hread, hunplaced', '"', .inr ?_⟩
  rw [Ast.placed, Ast.unplaced_node, Kind.map, Option.map_some, hunplaced]
  rfl

/-- A value with a line feed is not read back as a string between braces. -/
theorem not_readsBack_braced {value : Text} (hname : name.isName = true) (hline : newline ∈ value) :
    ¬ ReadsBack name value (openBrace :: (Text.quoted '"' value ++ [closeBrace])) := by
  rintro ⟨element, stored, hread, hunplaced, -⟩
  obtain ⟨src, hsrc⟩ :
      ∃ src, src =
        tagWith (name ++ equals :: openBrace :: (Text.quoted '"' value ++ [closeBrace])) :=
    ⟨_, rfl⟩
  obtain ⟨-, -, hequals, hlength⟩ := parts_of_tagWith hsrc
  simp only [List.length_cons, List.length_append, List.length_nil] at hlength
  have hstart : 3 < 3 + name.length := Nat.lt_add_of_pos_right (Text.length_pos_of_isName hname)
  have hquoted : Text.quoted '"' value =
      quote :: (Text.escape '"' value ++ [quote]) := by
    rw [Text.quoted, show Text.ofChar '"' = [quote] by decide]
    rfl
  rw [List.cons_append, List.append_assoc] at hequals
  have hclose : closeTail (.group closeBrace) []
      (Text.quoted '"' value ++ ([closeBrace] ++ [space, slash, greater])) = none := by
    rw [hquoted, List.cons_append, List.append_assoc, closeTail_group_cons,
      lead_of_isQuote (by decide)]
    simp only
      [stringTail_escape_newline (show Text.ofChar '"' = [quote] by decide) (by decide) hline]
    rfl
  have hattr := attributeAt_unclosed (readers src src.length) hequals hclose
    (show 3 + name.length + 1 < src.length by omega) hstart
  refine (program_tag hname hsrc rfl hstart).2 hattr element (hsrc ▸ hread) ?_
  rw [← Ast.form_unplaced, hunplaced]
  rfl

end Attributes

end Read

namespace Tree

open Ast Read

variable {t : Tree} {n : NodeId} {name value : Text} {delimiter : Char}

/-- A made attribute prints its name, an equals sign and its string. -/
theorem printNode_attr (ht : t.Linked)
    (hn : t.Depicts n (made (.attr name (some (made (.str value delimiter)))))) :
    (t.printNode n).code = name ++ equals :: attributeString value delimiter := by
  have hplace : (made (.attr name (some (made (.str value delimiter))))).Every
      fun b => b.span = none :=
    every_node.mpr
      ⟨rfl, List.forall_mem_singleton.mpr (every_node.mpr ⟨rfl, by simp [Kind.children]⟩)⟩
  rw [printNode_of_depicts ht hn hplace, made, written_node]
  simp [Kind.map, Kind.render, Kind.form, made, written_node, Printed.ofText]

/-- **Attribute strings are read back.**  A string that is printed as the value of an attribute
is read again with that value, as a string or as an expression that holds one, unless it contains
both quotes and a line feed. -/
theorem attribute_read_back (ht : t.Linked) (hname : name.isName = true)
    (hdelimiter : delimiter = '"' ∨ delimiter = '\'')
    (hn : t.Depicts n (made (.attr name (some (made (.str value delimiter)))))) :
    (∃ element stored, program (tagWith (t.printNode n).code) = .ok [element] ∧
      element.unplaced = soleAttribute name stored ∧ HoldsString value stored) ↔
    ¬ (newline ∈ value ∧ quote ∈ value ∧ apostrophe ∈ value) := by
  rw [printNode_attr ht hn]
  show ReadsBack name value _ ↔ _
  rcases attributeString_cases value hdelimiter with ⟨q, hq, hvalue, hwritten⟩ | ⟨hq, ha, hwritten⟩
  · rw [hwritten]
    refine iff_of_true (readsBack_quoted hname hq hvalue) ?_
    rintro ⟨-, hquote, hapostrophe⟩
    simp only [Byte.isQuote, Bool.or_eq_true, beq_iff_eq] at hq
    rcases hq with rfl | rfl
    · exact hvalue hquote
    · exact hvalue hapostrophe
  · rw [hwritten]
    by_cases hline : newline ∈ value
    · exact iff_of_false (not_readsBack_braced hname hline) (not_not_intro ⟨hline, hq, ha⟩)
    · exact iff_of_true (readsBack_braced hname hline) fun h => hline h.1

/-- A value with both quotes, a backslash and a brace. -/
theorem both_quotes_read_back :
    ∃ (t : Tree) (n : NodeId) (element stored : Ast),
      (t.printNode n).code = Text.ofString "data-tw=\x7b\"it's \\\"\\\\\x7d\"\x7d" ∧
      program (tagWith (t.printNode n).code) = .ok [element] ∧
      element.unplaced = soleAttribute (Text.ofString "data-tw") stored ∧
      HoldsString (Text.ofString "it's \"\\\x7d") stored := by
  let attr := made (.attr (Text.ofString "data-tw")
    (some (made (.str (Text.ofString "it's \"\\\x7d") '"'))))
  have hempty := linked_new []
  obtain ⟨element, stored, hread, hunplaced, hholds⟩ :=
    (attribute_read_back (graft_spec attr _ hempty).linked (by decide +kernel) (.inl rfl)
      (depicts_graft hempty attr)).mpr (by decide +kernel)
  exact ⟨_, _, element, stored, by decide +kernel, hread, hunplaced, hholds⟩

/-- Not every string that is printed as the value of an attribute is read back. -/
theorem not_always_read_back :
    ¬ ∀ (t : Tree) (n : NodeId) (name value : Text) (delimiter : Char), t.Linked →
      name.isName = true → (delimiter = '"' ∨ delimiter = '\'') →
      t.Depicts n (made (.attr name (some (made (.str value delimiter))))) →
      ∃ element stored, program (tagWith (t.printNode n).code) = .ok [element] ∧
        element.unplaced = soleAttribute name stored ∧ HoldsString value stored := by
  intro h
  let attr := made (.attr (Text.ofString "a") (some (made (.str (Text.ofString "\"'\n") '"'))))
  have hempty := linked_new []
  have hread := h _ _ (Text.ofString "a") (Text.ofString "\"'\n") '"'
    (graft_spec attr _ hempty).linked (by decide) (.inl rfl) (depicts_graft hempty attr)
  rw [printNode_attr (graft_spec attr _ hempty).linked (depicts_graft hempty attr)] at hread
  exact not_readsBack_braced (by decide) (by decide) hread

end Tree

end JsxStyle
