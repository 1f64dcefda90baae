import JsxStyle.Proofs.Faults
import JsxStyle.Proofs.Trimming
import JsxStyle.Proofs.Scanners
import JsxStyle.Scan.Mention

/-!
# The tokens of code

Code that no reader takes apart is still made of tokens: literals, comments, words,
numbers, and single characters.  A string or a template that does not end begins with
a quotation mark that is a character like others, and a block comment that does not end
takes all that is left.  Nothing is left out, so the tokens together are the code.

How a token ends is known in part, and more of it from the byte that follows.  Words
and literals end with a byte that is neither white space nor a full stop.  A line comment
may end with anything, but a line feed comes next.  A character of several bytes ends
where no byte goes on with it.  So a text that ends with a full stop ends with the token
of that name, unless it ends with a line comment.

* `text_tokensFrom`: the tokens together are the code;
* `lexeme_tokenAt`: what there can be at an offset;
* `Lexeme.shaped`: how a token ends;
* `stop_of_lexed`, `spread_of_lexed`: which tokens a full stop at the end comes from.
-/

namespace JsxStyle

namespace Scan

open Ascii

/-- What a token is. -/
inductive TokenKind where
  /-- A string literal. -/
  | string
  /-- A template literal.  Its holes are code of their own. -/
  | template (holes : List Text)
  /-- A comment that ends with its line. -/
  | lineComment
  /-- A comment that ends with `*/`, or not at all. -/
  | blockComment
  /-- An identifier or keyword. -/
  | ident
  /-- A number, or what of it the characters of identifiers can write. -/
  | number
  /-- Any other character. -/
  | char
deriving DecidableEq, Repr

/-- A token with the text it takes. -/
structure Token where
  kind : TokenKind
  text : Text
deriving DecidableEq, Repr

namespace Token

/-- The code within a token. -/
def holes (t : Token) : List Text :=
  match t.kind with
  | .template holes => holes
  | _ => []

/-- The full stop that a property name follows. -/
def fullStop : Token := ⟨.char, [dot]⟩

/-- Whether a token is a comment of either sort. -/
def isComment (t : Token) : Bool :=
  t.kind == .lineComment || t.kind == .blockComment

/-- Whether a token is a white-space character. -/
def isBlank (t : Token) : Bool :=
  t.kind == .char && t.text.isBlank

end Token

/-- The kind and the width of a token that is no literal and no comment: a word, a number
or one character, with all of its bytes. -/
def wordAt (b : Byte) (rest : Text) : TokenKind × Nat :=
  if b.isIdentStart then (.ident, (rest.takeWhile Byte.isIdentChar).length + 1)
  else if b.isIdentChar then (.number, (rest.takeWhile Byte.isIdentChar).length + 1)
  else if b.isAscii then (.char, 1)
  else (.char, (rest.takeWhile Byte.isContinuation).length + 1)

/-- The kind and the width of the token at offset `i` of `code`, where `b` and `rest`
stand.  A string or template that does not end is no more than the byte it begins
with; a block comment that does not end takes all that is left. -/
def tokenAt (code : Text) (i : Nat) (b : Byte) (rest : Text) : TokenKind × Nat :=
  match lead b rest with
  | .string quote =>
    match stringTail quote rest with
    | none => (.char, 1)
    | some n => (.string, n + 1)
  | .template =>
    match templateTail (i + 1) rest with
    | none => (.char, 1)
    | some parts => (.template (parts.holes.map (·.of code)), parts.stop - i)
  | .lineComment => (.lineComment, lineTail rest + 1)
  | .blockComment =>
    match commentTail (rest.drop 1) with
    | none => (.blockComment, rest.length + 1)
    | some n => (.blockComment, n + 2)
  | .group _ | .plain => wordAt b rest

/-- No literal and no comment begins with `b`. -/
def OpensWord (b : Byte) (rest : Text) : Prop :=
  lead b rest = .plain ∨ ∃ close, lead b rest = .group close

/-- The tokens that there can be at an offset, each with what the scanners say of it. -/
inductive Lexeme (code : Text) (i : Nat) (b : Byte) (rest : Text) : TokenKind → Nat → Prop
  | openString {quote : Byte} (hlead : lead b rest = .string quote)
      (hend : stringTail quote rest = none) : Lexeme code i b rest .char 1
  | string {quote : Byte} {n : Nat} (hlead : lead b rest = .string quote)
      (hend : stringTail quote rest = some n) : Lexeme code i b rest .string (n + 1)
  | openTemplate (hlead : lead b rest = .template) (hend : templateTail (i + 1) rest = none) :
      Lexeme code i b rest .char 1
  | template {parts : TemplateParts} (hlead : lead b rest = .template)
      (hend : templateTail (i + 1) rest = some parts) :
      Lexeme code i b rest (.template (parts.holes.map (·.of code))) (parts.stop - i)
  | lineComment (hlead : lead b rest = .lineComment) :
      Lexeme code i b rest .lineComment (lineTail rest + 1)
  | openComment (hlead : lead b rest = .blockComment) (hend : commentTail (rest.drop 1) = none) :
      Lexeme code i b rest .blockComment (rest.length + 1)
  | blockComment {n : Nat} (hlead : lead b rest = .blockComment)
      (hend : commentTail (rest.drop 1) = some n) : Lexeme code i b rest .blockComment (n + 2)
  | ident (hlead : OpensWord b rest) (hstart : b.isIdentStart = true) :
      Lexeme code i b rest .ident ((rest.takeWhile Byte.isIdentChar).length + 1)
  | number (hlead : OpensWord b rest) (hstart : b.isIdentStart = false)
      (hchar : b.isIdentChar = true) :
      Lexeme code i b rest .number ((rest.takeWhile Byte.isIdentChar).length + 1)
  | single (hlead : OpensWord b rest) (hchar : b.isIdentChar = false) (hascii : b.isAscii = true) :
      Lexeme code i b rest .char 1
  | wide (hlead : OpensWord b rest) (hchar : b.isIdentChar = false) (hascii : b.isAscii = false) :
      Lexeme code i b rest .char ((rest.takeWhile Byte.isContinuation).length + 1)

/-- What is read as a word is a lexeme. -/
theorem lexeme_wordAt (code : Text) (i : Nat) {b : Byte} {rest : Text} (hlead : OpensWord b rest) :
    Lexeme code i b rest (wordAt b rest).1 (wordAt b rest).2 := by
  unfold wordAt
  split
  case isTrue hstart => exact .ident hlead hstart
  case isFalse hstart =>
    split
    case isTrue hchar => exact .number hlead (Bool.eq_false_iff.mpr hstart) hchar
    case isFalse hchar =>
      split
      case isTrue hascii => exact .single hlead (Bool.eq_false_iff.mpr hchar) hascii
      case isFalse hascii =>
        exact .wide hlead (Bool.eq_false_iff.mpr hchar) (Bool.eq_false_iff.mpr hascii)

/-- What is read as a token is a lexeme. -/
theorem lexeme_tokenAt (code : Text) (i : Nat) (b : Byte) (rest : Text) :
    Lexeme code i b rest (tokenAt code i b rest).1 (tokenAt code i b rest).2 := by
  unfold tokenAt
  cases hlead : lead b rest with
  | string quote =>
    dsimp only
    cases hend : stringTail quote rest with
    | none => exact .openString hlead hend
    | some n => exact .string hlead hend
  | template =>
    dsimp only
    cases hend : templateTail (i + 1) rest with
    | none => exact .openTemplate hlead hend
    | some parts => exact .template hlead hend
  | lineComment => exact .lineComment hlead
  | blockComment =>
    dsimp only
    cases hend : commentTail (rest.drop 1) with
    | none => exact .openComment hlead hend
    | some n => exact .blockComment hlead hend
  | group close => exact lexeme_wordAt code i (Or.inr ⟨close, hlead⟩)
  | plain => exact lexeme_wordAt code i (Or.inl hlead)

theorem Lexeme.pos {code rest : Text} {i width : Nat} {b : Byte} {kind : TokenKind}
    (h : Lexeme code i b rest kind width) : 0 < width := by
  cases h with
  | template hlead hend =>
    have hstop := (templateTail_bounds hend).1
    omega
  | _ => exact Nat.succ_pos _

/-- The tokens of `code` from offset `i` on. -/
def tokensFrom (code : Text) (i : Nat) : List Token :=
  match _h : code.drop i with
  | [] => []
  | b :: rest =>
    ⟨(tokenAt code i b rest).1, code.slice i (i + (tokenAt code i b rest).2)⟩ ::
      tokensFrom code (i + (tokenAt code i b rest).2)
termination_by code.length - i
decreasing_by
  have hlt := Read.lt_length_of_drop_eq_cons _h
  have hpos := (lexeme_tokenAt code i b rest).pos
  omega

/-- The tokens that code consists of. -/
def tokens (code : Text) : List Token :=
  tokensFrom code 0

variable {code rest : Text} {b : Byte} {i : Nat}

/-- At the end of code there are no more tokens. -/
theorem tokensFrom_nil (h : code.drop i = []) : tokensFrom code i = [] := by
  rw [tokensFrom]
  split
  case h_1 => rfl
  case h_2 hcons => exact absurd (h.symm.trans hcons) (by simp)

/-- Before it there is one, and those behind it. -/
theorem tokensFrom_cons (h : code.drop i = b :: rest) :
    tokensFrom code i =
      ⟨(tokenAt code i b rest).1, code.slice i (i + (tokenAt code i b rest).2)⟩ ::
        tokensFrom code (i + (tokenAt code i b rest).2) := by
  rw [tokensFrom]
  split
  case h_1 hnil => exact absurd (h.symm.trans hnil) (by simp)
  case h_2 b' rest' hcons =>
    obtain ⟨rfl, rfl⟩ := List.cons.inj (hcons.symm.trans h)
    rfl

/-- Induction along the tokens of code. -/
@[elab_as_elim]
theorem token_induction (code : Text) {motive : Nat → Prop}
    (nil : ∀ i, code.drop i = [] → motive i)
    (cons : ∀ i b rest, code.drop i = b :: rest →
      motive (i + (tokenAt code i b rest).2) → motive i) (i : Nat) : motive i := by
  cases h : code.drop i with
  | nil => exact nil i h
  | cons b rest => exact cons i b rest h (token_induction code nil cons _)
termination_by code.length - i
decreasing_by
  have hlt := Read.lt_length_of_drop_eq_cons h
  have hpos := (lexeme_tokenAt code i b rest).pos
  omega

/-! ### How tokens end -/

/-- The tokens together are the code. -/
theorem text_tokensFrom (code : Text) (i : Nat) :
    (tokensFrom code i).flatMap Token.text = code.drop i := by
  induction i using token_induction code with
  | nil i h =>
    rw [tokensFrom_nil h]
    exact h.symm
  | cons i b rest h ih =>
    rw [tokensFrom_cons h, List.flatMap_cons, ih, Text.slice, Nat.add_sub_cancel_left,
      ← List.drop_drop, List.take_append_drop]

/-- The text of tokens that are given from the last one on. -/
def textOf : List Token → Text
  | [] => []
  | t :: earlier => textOf earlier ++ t.text

/-- A byte and the run behind it are a slice of the code. -/
theorem slice_of_takeWhile (h : code.drop i = b :: rest) (p : Byte → Bool) :
    code.slice i (i + ((rest.takeWhile p).length + 1)) = b :: rest.takeWhile p := by
  rw [Text.slice, h, Nat.add_sub_cancel_left, List.take_succ_cons,
    ← List.prefix_iff_eq_take.mp (List.takeWhile_prefix p)]

/-- A byte that ends a word, a literal or a comment, none of which is a full stop. -/
def isFinal (c : Byte) : Bool :=
  c.isAscii && !Text.isBlankByte c && c != dot

/-- How a token ends in front of the byte `d`: with a byte that ends it for good, or in one of
the ways that depend on what follows. -/
inductive Shaped : Token → Byte → Prop
  | closed {kind : TokenKind} {u : Text} {c d : Byte} (hline : kind ≠ .lineComment)
      (hchar : kind ≠ .char) (hc : isFinal c = true) : Shaped ⟨kind, u ++ [c]⟩ d
  | line {u : Text} {d : Byte} (hd : d = newline) : Shaped ⟨.lineComment, slash :: u⟩ d
  | single {c d : Byte} (hc : c.isAscii = true) : Shaped ⟨.char, [c]⟩ d
  | wide {u : Text} {d : Byte} (hne : u ≠ []) (hu : ∀ c ∈ u, c.isAscii = false)
      (hd : d.isContinuation = false) : Shaped ⟨.char, u⟩ d

/-- Tokens in front of the byte `d`, the nearest first. -/
inductive Lexed : List Token → Byte → Prop
  | nil {d : Byte} : Lexed [] d
  | cons {t : Token} {earlier : List Token} {c d : Byte} (hfirst : t.text.head? = some c)
      (hshaped : Shaped t d) (hearlier : Lexed earlier c) : Lexed (t :: earlier) d

/-- The bytes of identifiers end a token visibly. -/
theorem isFinal_of_isIdentChar : ∀ b : Byte, b.isIdentChar = true → isFinal b = true :=
  forall_byte (by decide +kernel)

/-- Quotes end a token visibly. -/
theorem isFinal_of_isQuote : ∀ b : Byte, b.isQuote = true → isFinal b = true :=
  forall_byte (by decide +kernel)

/-- What ends a token visibly is ASCII. -/
theorem isAscii_of_isFinal {c : Byte} (h : isFinal c = true) : c.isAscii = true := by
  simp only [isFinal, Bool.and_eq_true] at h
  exact h.1.1

/-- A visible ASCII byte other than a full stop ends a token visibly. -/
theorem isFinal_of_isBlank {c : Byte} (hascii : c.isAscii = true)
    (hblank : Text.isBlank [c] = false) (hdot : c ≠ dot) : isFinal c = true := by
  have hbyte : ∀ c : Byte, Text.isBlankByte c = Text.isBlank [c] :=
    forall_byte (by decide +kernel)
  rw [isFinal, hascii, hbyte, hblank, bne_iff_ne.mpr hdot]
  rfl

/-- A block comment ends with a slash. -/
theorem getElem?_commentTail {t : Text} {n : Nat} (h : commentTail t = some n) :
    ∃ m, n = m + 1 ∧ t[m]? = some slash := by
  induction t generalizing n with
  | nil => exact absurd h (by simp [commentTail])
  | cons b rest ih =>
    rw [commentTail] at h
    split at h
    case isTrue hend =>
      obtain rfl := Option.some.inj h
      exact ⟨1, rfl, by rw [List.getElem?_cons_succ, ← List.head?_eq_getElem?]; exact hend.2⟩
    case isFalse =>
      obtain ⟨k, hk, rfl⟩ := Option.map_eq_some_iff.mp h
      obtain ⟨m, rfl, hm⟩ := ih hk
      exact ⟨m + 1, rfl, hm⟩

/-- A literal or comment ends with the byte that closes it. -/
theorem shaped_of_final {kind : TokenKind} {width m : Nat} {c d : Byte}
    (hline : kind ≠ .lineComment) (hchar : kind ≠ .char) (hwidth : width = m + 1)
    (hc : code[i + m]? = some c) (hfinal : isFinal c = true) :
    Shaped ⟨kind, code.slice i (i + width)⟩ d := by
  have hlast : code.slice (i + m) (i + m + 1) = [c] := by
    rw [Text.slice, drop_eq_cons_of_getElem? hc, Nat.add_sub_cancel_left]
    rfl
  rw [hwidth, ← Nat.add_assoc, ← Text.slice_append_slice code (Nat.le_add_right i m)
    (Nat.le_add_right (i + m) 1), hlast]
  exact .closed hline hchar hfinal

/-- An ASCII byte that is a token by itself has the shape of one. -/
theorem shaped_single {d : Byte} (h : code.drop i = b :: rest) (hb : b.isAscii = true) :
    Shaped ⟨.char, code.slice i (i + 1)⟩ d := by
  have hslice : code.slice i (i + 1) = [b] := by
    rw [Text.slice, h, Nat.add_sub_cancel_left]
    rfl
  rw [hslice]
  exact .single hb

/-- A word or number ends with one of its characters. -/
theorem shaped_run {kind : TokenKind} {d : Byte} (h : code.drop i = b :: rest)
    (hline : kind ≠ .lineComment) (hchar : kind ≠ .char) (hb : b.isIdentChar = true) :
    Shaped ⟨kind, code.slice i (i + ((rest.takeWhile Byte.isIdentChar).length + 1))⟩ d := by
  have hall : ∀ c ∈ b :: rest.takeWhile Byte.isIdentChar, c.isIdentChar = true :=
    List.forall_mem_cons.mpr ⟨hb, List.all_eq_true.mp List.all_takeWhile⟩
  rw [slice_of_takeWhile h]
  obtain hnil | ⟨u, c, hword⟩ := List.eq_nil_or_concat (b :: rest.takeWhile Byte.isIdentChar)
  · exact absurd hnil (List.cons_ne_nil _ _)
  · rw [hword, List.concat_eq_append] at hall ⊢
    exact .closed hline hchar (isFinal_of_isIdentChar c (hall c (by simp)))

/-- **How a token ends** in front of the byte that follows it. -/
theorem Lexeme.shaped {kind : TokenKind} {width : Nat} {d : Byte}
    (htoken : Lexeme code i b rest kind width) (h : code.drop i = b :: rest)
    (hd : code[i + width]? = some d) :
    Shaped ⟨kind, code.slice i (i + width)⟩ d := by
  have hbyte (k : Nat) : code[i + (k + 1)]? = rest[k]? := by
    rw [Nat.add_comm k 1, ← Nat.add_assoc, ← List.getElem?_drop, (getElem?_of_drop_eq_cons h).2]
  cases htoken with
  | openString hlead hend =>
    obtain ⟨rfl, hquote⟩ := isQuote_of_lead hlead
    exact shaped_single h (Byte.isAscii_of_isQuote hquote)
  | string hlead hend =>
    obtain ⟨rfl, hquote⟩ := isQuote_of_lead hlead
    obtain ⟨m, rfl, hm⟩ := getElem?_stringTail hend
    have hfinal := isFinal_of_isQuote b hquote
    exact shaped_of_final (by simp) (by simp) rfl ((hbyte m).trans hm) hfinal
  | openTemplate hlead hend =>
    obtain rfl := eq_tick_of_lead hlead
    exact shaped_single h rfl
  | template hlead hend =>
    have hstop := stop_templateTail (i + 1) rest
    rw [hend, Option.map_some, eq_comm, Option.map_eq_some_iff] at hstop
    obtain ⟨n, hn, hstop⟩ := hstop
    obtain ⟨m, rfl, hm⟩ := getElem?_closeTail rfl hn
    exact shaped_of_final (by simp) (by simp) (by omega) ((hbyte m).trans hm) (by decide)
  | lineComment hlead =>
    obtain ⟨rfl, -⟩ := slashes_of_lead hlead
    rw [hbyte, ← List.head?_drop] at hd
    obtain rfl : d = newline := by simpa using not_of_drop_takeWhile hd
    rw [lineTail, slice_of_takeWhile h]
    exact .line rfl
  | openComment hlead hend =>
    rw [hbyte, List.getElem?_length] at hd
    exact absurd hd (by simp)
  | blockComment hlead hend =>
    obtain ⟨m, rfl, hm⟩ := getElem?_commentTail hend
    rw [List.getElem?_drop, Nat.add_comm 1 m] at hm
    exact shaped_of_final (by simp) (by simp) rfl ((hbyte (m + 1)).trans hm) (by decide)
  | ident hlead hstart =>
    exact shaped_run h (by simp) (by simp) (Byte.isIdentChar_of_isIdentStart hstart)
  | number hlead hstart hchar => exact shaped_run h (by simp) (by simp) hchar
  | single hlead hchar hascii => exact shaped_single h hascii
  | wide hlead hchar hascii =>
    rw [hbyte, ← List.head?_drop] at hd
    rw [slice_of_takeWhile h]
    refine .wide (List.cons_ne_nil _ _) ?_ (not_of_drop_takeWhile hd)
    refine List.forall_mem_cons.mpr ⟨hascii, fun c hc => Bool.eq_false_iff.mpr fun hc' => ?_⟩
    have hcontinuation := List.all_eq_true.mp List.all_takeWhile c hc
    rw [Byte.not_isContinuation_of_isAscii hc'] at hcontinuation
    exact Bool.false_ne_true hcontinuation

/-- The hole of a template in the code is shorter than the code. -/
theorem Lexeme.length_hole {kind : TokenKind} {width : Nat} {text hole : Text}
    (htoken : Lexeme code i b rest kind width) (h : code.drop i = b :: rest)
    (hhole : hole ∈ (Token.mk kind text).holes) : hole.length < code.length := by
  cases htoken with
  | template hlead hend =>
    obtain ⟨s, hs, rfl⟩ := List.mem_map.mp hhole
    exact length_hole_lt h hend hs
  | _ => exact absurd hhole List.not_mem_nil

/-- The code in a template is shorter than the code that the template stands in. -/
theorem length_hole_of_tokens {hole : Text} {t : Token} (ht : t ∈ tokensFrom code i)
    (hhole : hole ∈ t.holes) : hole.length < code.length := by
  induction i using token_induction code with
  | nil i h =>
    rw [tokensFrom_nil h] at ht
    exact absurd ht List.not_mem_nil
  | cons i b rest h ih =>
    rw [tokensFrom_cons h] at ht
    rcases List.mem_cons.mp ht with rfl | ht
    · exact (lexeme_tokenAt code i b rest).length_hole h hhole
    · exact ih ht

/-- No white space reaches from one token into the next. -/
theorem parted_of_lexed {earlier : List Token} {c : Byte} {v : Text} (h : Lexed earlier c)
    (hv : v.head? = some c) : Text.Parted (textOf earlier) v := by
  by_cases hc : c.isContinuation = false
  · refine Or.inr fun b hb => ?_
    obtain rfl : c = b := Option.some.inj (hv.symm.trans hb)
    exact hc
  refine Or.inl fun a hlast => ?_
  rw [Option.mem_def] at hlast
  cases h with
  | nil => exact absurd hlast (by simp [textOf])
  | @cons t earlier c' _ hfirst hshaped hearlier =>
    rw [textOf] at hlast
    cases hshaped with
    | closed hline hchar hfinal =>
      rw [← List.append_assoc, List.getLast?_concat] at hlast
      rw [← Option.some.inj hlast]
      exact isAscii_of_isFinal hfinal
    | line hd =>
      rw [hd] at hc
      exact absurd rfl hc
    | single hascii =>
      rw [List.getLast?_concat] at hlast
      rw [← Option.some.inj hlast]
      exact hascii
    | wide hne hu hd => exact absurd hd hc

/-- A full stop at the end is the token of that name: a line comment that ends with one would be
followed by a line feed, and not by a second full stop. -/
theorem stop_of_lexed {before : List Token} {u : Text} (h : Lexed before dot)
    (hu : textOf before = u ++ [dot]) :
    ∃ earlier, before = .fullStop :: earlier ∧ textOf earlier = u ∧ Lexed earlier dot := by
  cases h with
  | nil => exact absurd hu (by simp [textOf])
  | @cons t earlier c _ hfirst hshaped hearlier =>
    rw [textOf] at hu
    cases hshaped with
    | @closed kind v c' _ hline hchar hfinal =>
      rw [← List.append_assoc] at hu
      have hdot : c' = dot := List.singleton_inj.mp (List.append_inj_right' hu rfl)
      rw [hdot] at hfinal
      exact absurd hfinal (by decide)
    | line hd => exact absurd hd (by decide)
    | @single c' _ hc =>
      obtain ⟨htext, hdot⟩ := List.append_inj' hu rfl
      obtain rfl := List.singleton_inj.mp hdot
      obtain rfl := Option.some.inj hfirst
      exact ⟨earlier, rfl, htext, hearlier⟩
    | @wide v _ hne hv hd =>
      have hlast : v.getLast? = some dot := by
        rw [← List.getLast?_append_of_ne_nil (textOf earlier) hne, hu, List.getLast?_concat]
      exact absurd (hv dot (List.mem_of_getLast? hlast)) (by decide)

/-- Two full stops in front of a third are tokens of their own. -/
theorem spread_of_lexed {before : List Token} (h : Lexed before dot) :
    [dot, dot].isSuffixOf (textOf before) = [Token.fullStop, Token.fullStop].isPrefixOf before := by
  rw [Bool.eq_iff_iff, List.isSuffixOf_iff_suffix, List.isPrefixOf_iff_prefix]
  constructor
  · rintro ⟨u, hu⟩
    obtain ⟨before, rfl, hbefore, hlexed⟩ :=
      stop_of_lexed h (u := u ++ [dot]) (by rw [← hu, List.append_assoc]; rfl)
    obtain ⟨earlier, rfl, -, -⟩ := stop_of_lexed hlexed hbefore
    exact ⟨earlier, rfl⟩
  · rintro ⟨earlier, rfl⟩
    exact ⟨textOf earlier, (List.append_assoc _ [dot] [dot]).symm⟩

end Scan

end JsxStyle
