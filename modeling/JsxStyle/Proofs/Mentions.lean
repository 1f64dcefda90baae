import JsxStyle.Proofs.CheckedText
import JsxStyle.Proofs.Comments
import JsxStyle.Proofs.Tokens

/-!
# Which names code mentions

The search for a name walks over the tokens of the code and judges every identifier by
the text before it: if that ends with a full stop, a property name follows.  The text is
what the tokens before are written as, so the judgement can be made of the tokens, the
nearest first.  White space at the end does not count, and three full stops in a row are
a spread.

But the text of a comment does count, although the walk steps over comments.  A
block comment ends with a slash, which hides a full stop in front of it; a line
comment does the same, and if it ends with a full stop itself, it makes the name in
the next line a property.  Comments that do neither are harmless, and where no other
stands right before the name, the search finds exactly the identifiers that are no
property names.

* `afterDot_textOf`: the look back, as a judgement of tokens;
* `mentionsFrom_eq_uses`: the search as a walk over tokens;
* `mentions_iff`: where a name is found;
* `mentions_iff_of_clear`: it is found where it occurs, unless a comment misleads;
* `hidden_behind_comment`: a name that a comment hides.
-/

namespace JsxStyle

namespace Scan

open Ascii

/-- Whether a full stop that is none of a spread is the nearest of the tokens, which
are given from the nearest on. -/
def endsInStop : List Token → Bool
  | [] => false
  | t :: earlier => t == .fullStop && !([.fullStop, .fullStop].isPrefixOf earlier)

/-- Whether a property name follows the tokens, comments and white space left out. -/
def followsStop (before : List Token) : Bool :=
  endsInStop (before.dropWhile fun t => t.isBlank || t.isComment)

/-- Whether the text of the tokens looks as if a property name followed: a line comment
is taken for code. -/
def looksStopped (before : List Token) : Bool :=
  match before.dropWhile Token.isBlank with
  | ⟨.lineComment, text⟩ :: _ => afterDot text
  | nearest => endsInStop nearest

/-- Whether the comment in front of a name, white space left out, hides what the tokens before it
tell: a block comment hides a full stop, and a line comment does or looks like one itself. -/
def misleads (before : List Token) : Bool :=
  match before.dropWhile Token.isBlank with
  | ⟨.blockComment, _⟩ :: _ => followsStop before
  | ⟨.lineComment, text⟩ :: _ => afterDot text != followsStop before
  | _ => false

/-- `name` occurs as an identifier of `code`, or of the code in a hole of one of its
templates, behind tokens of which `p` holds.  They are given to `p` from the nearest on. -/
inductive Occurs (p : List Token → Bool) (name : Text) : Text → Prop
  | here {code : Text} (k : Nat) (hname : (tokens code)[k]? = some ⟨.ident, name⟩)
      (hbefore : p ((tokens code).take k).reverse = true) : Occurs p name code
  | inside {code hole : Text} {t : Token} (ht : t ∈ tokens code) (hhole : hole ∈ t.holes)
      (hoccurs : Occurs p name hole) : Occurs p name code

variable {name code rest : Text} {b : Byte} {i : Nat}

/-! ### Looking back -/

/-- White space behind a full stop does not matter. -/
theorem afterDot_blank (u : Text) {v : Text} (hv : v.isBlank = true) :
    afterDot (u ++ v) = afterDot u := by
  rw [afterDot, Text.trimEnd_append_blank u hv]
  rfl

/-- Without a full stop at the end of the trimmed text there is none before the name. -/
theorem afterDot_of_getLast? {before : Text} (h : before.trimEnd.getLast? ≠ some dot) :
    afterDot before = false := by
  have hlast : [dot].isSuffixOf before.trimEnd = false := by
    refine Bool.eq_false_iff.mpr fun hsuffix => h ?_
    obtain ⟨u, hu⟩ := List.isSuffixOf_iff_suffix.mp hsuffix
    rw [← hu, List.getLast?_concat]
  rw [afterDot, hlast]
  rfl

/-- Directly behind a visible ASCII byte other than a full stop no property name follows. -/
theorem afterDot_final (u : Text) {c : Byte} (hc : isFinal c = true) :
    afterDot (u ++ [c]) = false := by
  simp only [isFinal, Bool.and_eq_true, Bool.not_eq_true', bne_iff_ne, ne_eq] at hc
  obtain ⟨⟨hascii, hblank⟩, hdot⟩ := hc
  apply afterDot_of_getLast?
  rw [Text.trimEnd_concat u hascii hblank, List.getLast?_concat]
  exact fun heq => hdot (Option.some.inj heq)

/-- Behind a full stop a property name follows, unless the stop ends a spread. -/
theorem afterDot_stop (u : Text) : afterDot (u ++ [dot]) = !([dot, dot].isSuffixOf u) := by
  rw [afterDot, Text.trimEnd_concat u (by decide) (by decide)]
  simp [List.isSuffixOf]

/-- What stands before a comment has no say in how the text behind it looks. -/
theorem afterDot_slash (u v : Text) : afterDot (u ++ slash :: v) = afterDot (slash :: v) := by
  have hsuffix (w dots : Text) (hdots : slash ∉ dots) :
      dots.isSuffixOf (u ++ slash :: w) = dots.isSuffixOf (slash :: w) := by
    rw [Bool.eq_iff_iff, List.isSuffixOf_iff_suffix, List.isSuffixOf_iff_suffix]
    constructor
    · intro h
      rcases List.suffix_or_suffix_of_suffix h (List.suffix_append u (slash :: w)) with h | h
      · exact h
      · exact absurd (h.subset List.mem_cons_self) hdots
    · intro h
      exact h.trans (List.suffix_append u (slash :: w))
  rw [afterDot, afterDot, Text.trimEnd_append_mark (by decide), Text.trimEnd_mark (by decide)]
  rw [hsuffix _ [dot] (by decide), hsuffix _ [dot, dot, dot] (by decide)]

/-- Behind a visible text without ASCII bytes no property name follows. -/
theorem afterDot_wide {u v : Text} (hparted : Text.Parted u v) (hblank : v.isBlank = false)
    (hv : ∀ c ∈ v, c.isAscii = false) : afterDot (u ++ v) = false := by
  apply afterDot_of_getLast?
  intro hlast
  have hne : v.trimEnd ≠ [] := by
    cases v with
    | nil => exact absurd hblank (by decide +kernel)
    | cons b rest =>
      rw [Text.trimEnd, hblank]
      exact List.cons_ne_nil _ _
  rw [Text.trimEnd_append_of_parted hparted hblank, List.getLast?_append_of_ne_nil _ hne] at hlast
  have hdot := hv dot ((Text.trimEnd_prefix v).subset (List.mem_of_getLast? hlast))
  exact absurd hdot (by decide)

/-- White space does not change how the text before it looks. -/
theorem looksStopped_blank {t : Token} (earlier : List Token) (h : t.isBlank = true) :
    looksStopped (t :: earlier) = looksStopped earlier := by
  rw [looksStopped, List.dropWhile_cons_of_pos h]
  rfl

/-- A visible token that is no line comment settles how the text looks. -/
theorem looksStopped_visible {t : Token} (earlier : List Token) (h : t.isBlank = false)
    (hline : t.kind ≠ .lineComment) :
    looksStopped (t :: earlier) = endsInStop (t :: earlier) := by
  obtain ⟨kind, text⟩ := t
  rw [looksStopped, List.dropWhile_cons_of_neg (by simp [h])]
  cases kind with
  | lineComment => exact absurd rfl hline
  | _ => rfl

/-- The text before a token looks as its tokens do. -/
theorem afterDot_textOf {before : List Token} {d : Byte} (h : Lexed before d) :
    afterDot (textOf before) = looksStopped before := by
  induction h with
  | nil => rfl
  | @cons t earlier c d hfirst hshaped hearlier ih =>
    rw [textOf]
    cases hshaped with
    | @closed kind u c _ hline hchar hc =>
      have hvisible : Token.isBlank ⟨kind, u ++ [c]⟩ = false := by
        rw [Token.isBlank, beq_eq_false_iff_ne.mpr hchar, Bool.false_and]
      have hstop : (Token.mk kind (u ++ [c]) == .fullStop) = false :=
        beq_eq_false_iff_ne.mpr fun heq => hchar (congrArg Token.kind heq)
      rw [← List.append_assoc, afterDot_final _ hc, looksStopped_visible earlier hvisible hline,
        endsInStop, hstop]
      rfl
    | @line u _ hd =>
      rw [afterDot_slash]
      rfl
    | @single c _ hc =>
      cases hblank : Text.isBlank [c] with
      | true =>
        rw [afterDot_blank _ hblank, ih, looksStopped_blank earlier (by simpa [Token.isBlank])]
      | false =>
        rw [looksStopped_visible earlier (by simpa [Token.isBlank]) (by simp), endsInStop]
        by_cases hdot : c = dot
        · rw [hdot] at hfirst ⊢
          obtain rfl := Option.some.inj hfirst
          rw [afterDot_stop, spread_of_lexed hearlier]
          rfl
        · have hstop : (Token.mk .char [c] == .fullStop) = false := by
            refine beq_eq_false_iff_ne.mpr fun heq => hdot ?_
            exact List.singleton_inj.mp (congrArg Token.text heq)
          rw [hstop, afterDot_final _ (isFinal_of_isBlank hc hblank hdot)]
          rfl
    | @wide u _ hne hu hd =>
      cases hblank : Text.isBlank u with
      | true =>
        rw [afterDot_blank _ hblank, ih, looksStopped_blank earlier (by simpa [Token.isBlank])]
      | false =>
        have hstop : (Token.mk .char u == .fullStop) = false := by
          refine beq_eq_false_iff_ne.mpr fun heq => ?_
          obtain rfl : u = [dot] := congrArg Token.text heq
          exact absurd (hu dot List.mem_cons_self) (by decide)
        rw [afterDot_wide (parted_of_lexed hearlier hfirst) hblank hu,
          looksStopped_visible earlier (by simpa [Token.isBlank]) (by simp), endsInStop, hstop]
        rfl

/-! ### The walk over the tokens -/

/-- Whether a token uses a name: an identifier that is it and is not `hidden`, or a template
with code that mentions it. -/
def Token.uses (name : Text) (hidden : Bool) (t : Token) : Bool :=
  match t.kind with
  | .ident => t.text == name && !hidden
  | .template holes => holes.any (mentions name)
  | _ => false

/-- Whether one of the tokens uses a name.  The tokens before them are given from the
nearest on. -/
def uses (name : Text) (before : List Token) : List Token → Bool
  | [] => false
  | t :: after => t.uses name (looksStopped before) || uses name (t :: before) after

/-- Bytes within a character are passed over. -/
theorem mentionsFrom_within {u post : Text} (hu : ∀ c ∈ u, c.isContinuation = true)
    (h : code.drop i = u ++ post) :
    mentionsFrom name code i = mentionsFrom name code (i + u.length) := by
  induction u generalizing i with
  | nil => rfl
  | cons c u ih =>
    obtain ⟨hc, hu⟩ := List.forall_mem_cons.mp hu
    have hclass : ∀ c : Byte, c.isContinuation = true →
        isInert c = true ∧ c.isIdentStart = false ∧ c.isIdentChar = false :=
      forall_byte (by decide +kernel)
    obtain ⟨hinert, hstart, hchar⟩ := hclass c hc
    rw [List.cons_append] at h
    rw [mentionsFrom_cons h, (lead_of_isInert hinert _).1]
    simp only [hstart, hchar, Bool.false_eq_true, if_false]
    rw [ih hu (getElem?_of_drop_eq_cons h).2, List.length_cons, Nat.add_assoc, Nat.add_comm 1]

/-- A word is compared with the name; numbers and characters are passed over. -/
theorem mentionsFrom_opensWord (h : code.drop i = b :: rest) (hlead : OpensWord b rest) :
    mentionsFrom name code i =
      if b.isIdentStart then
        (!afterDot (code.take i) && (b :: rest.takeWhile Byte.isIdentChar) == name) ||
          mentionsFrom name code (i + 1 + (rest.takeWhile Byte.isIdentChar).length)
      else if b.isIdentChar then
        mentionsFrom name code (i + 1 + (rest.takeWhile Byte.isIdentChar).length)
      else mentionsFrom name code (i + 1) := by
  rcases hlead with hlead | ⟨close, hlead⟩ <;> rw [mentionsFrom_cons h, hlead]

/-- What is not part of an identifier begins none. -/
theorem isIdentStart_eq_false (h : b.isIdentChar = false) : b.isIdentStart = false := by
  refine Bool.eq_false_iff.mpr fun hstart => ?_
  rw [Byte.isIdentChar_of_isIdentStart hstart] at h
  exact Bool.false_ne_true h.symm

/-- The search takes one token at a time. -/
theorem Lexeme.mentionsFrom_eq {kind : TokenKind} {width : Nat}
    (htoken : Lexeme code i b rest kind width) (h : code.drop i = b :: rest) :
    mentionsFrom name code i =
      (Token.uses name (afterDot (code.take i)) ⟨kind, code.slice i (i + width)⟩ ||
        mentionsFrom name code (i + width)) := by
  have hcons : mentionsFrom name code i = _ := mentionsFrom_cons h
  cases htoken with
  | openString hlead hend =>
    simp only [hlead, hend] at hcons
    exact hcons
  | @string quote n hlead hend =>
    simp only [hlead, hend] at hcons
    rw [hcons, Nat.add_comm n 1, ← Nat.add_assoc]
    rfl
  | openTemplate hlead hend =>
    simp only [hlead, hend] at hcons
    exact hcons
  | template hlead hend =>
    have hstop := (templateTail_bounds hend).1
    simp only [hlead, hend] at hcons
    rw [hcons, Nat.add_sub_cancel' (by omega)]
    simp only [Token.uses, List.any_map]
    rfl
  | lineComment hlead =>
    simp only [hlead] at hcons
    rw [hcons, Nat.add_comm (lineTail rest) 1, ← Nat.add_assoc]
    rfl
  | openComment hlead hend =>
    have hnil : code.drop (i + (rest.length + 1)) = [] := by
      rw [← List.drop_drop, h, List.drop_succ_cons, List.drop_length]
    simp only [hlead, hend] at hcons
    rw [hcons, mentionsFrom_nil hnil]
    rfl
  | @blockComment n hlead hend =>
    simp only [hlead, hend] at hcons
    rw [hcons, Nat.add_comm n 2, ← Nat.add_assoc]
    rfl
  | ident hlead hstart =>
    rw [mentionsFrom_opensWord h hlead, if_pos hstart, slice_of_takeWhile h, Bool.and_comm,
      Nat.add_right_comm]
    rfl
  | number hlead hstart hchar =>
    rw [mentionsFrom_opensWord h hlead, if_neg (by simp [hstart]), if_pos hchar,
      Nat.add_right_comm]
    rfl
  | single hlead hchar hascii =>
    rw [mentionsFrom_opensWord h hlead, if_neg (by simp [isIdentStart_eq_false hchar]),
      if_neg (by simp [hchar])]
    rfl
  | wide hlead hchar hascii =>
    have hcontinuation : ∀ c ∈ rest.takeWhile Byte.isContinuation, c.isContinuation = true :=
      List.all_eq_true.mp List.all_takeWhile
    have hsplit : code.drop (i + 1) =
        rest.takeWhile Byte.isContinuation ++ rest.dropWhile Byte.isContinuation :=
      (getElem?_of_drop_eq_cons h).2.trans List.takeWhile_append_dropWhile.symm
    rw [mentionsFrom_opensWord h hlead, if_neg (by simp [isIdentStart_eq_false hchar]),
      if_neg (by simp [hchar]), mentionsFrom_within hcontinuation hsplit, Nat.add_right_comm]
    rfl

/-- The search for a name is a walk over the tokens. -/
theorem mentionsFrom_eq_uses {before : List Token}
    (hlexed : ∀ d, code[i]? = some d → Lexed before d) (htext : textOf before = code.take i) :
    mentionsFrom name code i = uses name before (tokensFrom code i) := by
  induction i using token_induction code generalizing before with
  | nil i h =>
    rw [mentionsFrom_nil h, tokensFrom_nil h]
    rfl
  | cons i b rest h ih =>
    have hbefore := hlexed b (getElem?_of_drop_eq_cons h).1
    have htoken := lexeme_tokenAt code i b rest
    rw [htoken.mentionsFrom_eq h, ← htext, afterDot_textOf hbefore, tokensFrom_cons h, uses]
    refine congrArg (_ || ·) (ih (fun d hd => .cons ?_ (htoken.shaped h hd) hbefore) ?_)
    · rw [Text.slice, h, Nat.add_sub_cancel_left, List.head?_take,
        if_neg (Nat.ne_of_gt htoken.pos)]
      rfl
    · rw [textOf, htext, List.take_add, Text.slice, Nat.add_sub_cancel_left]

/-- Code mentions a name when one of its tokens uses it. -/
theorem mentions_eq_uses (name code : Text) : mentions name code = uses name [] (tokens code) :=
  mentionsFrom_eq_uses (fun _ _ => .nil) rfl

/-! ### Where a name occurs -/

/-- A token uses a name as the identifier it is, or in one of its holes. -/
theorem Token.uses_iff {t : Token} {hidden : Bool} : t.uses name hidden = true ↔
    (t = ⟨.ident, name⟩ ∧ hidden = false) ∨ ∃ hole ∈ t.holes, mentions name hole = true := by
  obtain ⟨kind, text⟩ := t
  cases kind <;> simp [Token.uses, Token.holes]

/-- The walk finds a name at one of the tokens, and judges it by those before. -/
theorem uses_iff {before ts : List Token} : uses name before ts = true ↔
    ∃ (k : Nat) (t : Token), ts[k]? = some t ∧
      t.uses name (looksStopped ((ts.take k).reverse ++ before)) = true := by
  induction ts generalizing before with
  | nil => simp [uses]
  | cons t after ih =>
    rw [uses, Bool.or_eq_true, ih]
    constructor
    · rintro (h | ⟨k, u, hu, h⟩)
      · exact ⟨0, t, rfl, h⟩
      · refine ⟨k + 1, u, hu, ?_⟩
        rwa [List.take_succ_cons, List.reverse_cons, List.append_assoc]
    · rintro ⟨k, u, hu, h⟩
      cases k with
      | zero =>
        obtain rfl := Option.some.inj hu
        exact Or.inl h
      | succ k =>
        rw [List.take_succ_cons, List.reverse_cons, List.append_assoc] at h
        exact Or.inr ⟨k, u, hu, h⟩

/-- **A name is found where it occurs as an identifier**, unless the text before it looks
as if a property name followed. -/
theorem mentions_iff (name code : Text) :
    mentions name code = true ↔ Occurs (fun before => !looksStopped before) name code := by
  constructor
  · intro h
    induction hn : code.length using Nat.strongRecOn generalizing code with
    | ind n ih =>
      rw [mentions_eq_uses, uses_iff] at h
      obtain ⟨k, t, ht, h⟩ := h
      rw [List.append_nil, Token.uses_iff] at h
      rcases h with ⟨rfl, hseen⟩ | ⟨hole, hhole, hmentions⟩
      · exact .here k ht (by rw [hseen]; rfl)
      · have hmem := List.mem_of_getElem? ht
        have hlt := length_hole_of_tokens hmem hhole
        exact .inside hmem hhole (ih _ (hn ▸ hlt) hole hmentions rfl)
  · intro h
    induction h with
    | @here code k hname hbefore =>
      rw [mentions_eq_uses, uses_iff]
      refine ⟨k, _, hname, Token.uses_iff.mpr (Or.inl ⟨rfl, ?_⟩)⟩
      rw [List.append_nil]
      simpa using hbefore
    | @inside code hole t ht hhole _ ih =>
      rw [mentions_eq_uses, uses_iff]
      obtain ⟨k, hk⟩ := List.mem_iff_getElem?.mp ht
      exact ⟨k, t, hk, Token.uses_iff.mpr (Or.inr ⟨hole, hhole, ih⟩)⟩

/-- A name that occurs under one condition occurs under one of those it gives. -/
theorem Occurs.imp {p q r : List Token → Bool}
    (himp : ∀ before, p before = true → q before = true ∨ r before = true)
    (h : Occurs p name code) : Occurs q name code ∨ Occurs r name code := by
  induction h with
  | here k hname hbefore =>
    exact (himp _ hbefore).imp (.here k hname) (.here k hname)
  | inside ht hhole _ ih => exact ih.imp (.inside ht hhole) (.inside ht hhole)

/-- Dropping more kinds of tokens drops no more if the next is none of them. -/
theorem dropWhile_or {p q : Token → Bool} {before : List Token}
    (h : (before.dropWhile p).head?.any q = false) :
    before.dropWhile (fun t => p t || q t) = before.dropWhile p := by
  induction before with
  | nil => rfl
  | cons t earlier ih =>
    cases hp : p t with
    | true =>
      rw [List.dropWhile_cons_of_pos hp] at h ⊢
      rw [List.dropWhile_cons_of_pos (by rw [hp]; rfl), ih h]
    | false =>
      rw [List.dropWhile_cons_of_neg (by simp [hp])] at h
      have hq : q t = false := h
      rw [List.dropWhile_cons_of_neg (by simp [hp, hq]), List.dropWhile_cons_of_neg (by simp [hp])]

/-- Where no comment is in between, the text looks as the tokens are. -/
theorem looksStopped_eq {before : List Token}
    (h : (before.dropWhile Token.isBlank).head?.any Token.isComment = false) :
    looksStopped before = followsStop before := by
  rw [followsStop, dropWhile_or h, looksStopped]
  cases hnearest : before.dropWhile Token.isBlank with
  | nil => rfl
  | cons t earlier =>
    obtain ⟨kind, text⟩ := t
    cases kind with
    | lineComment => exact absurd h (by simp [hnearest, Token.isComment])
    | _ => rfl

/-- The text looks as the tokens are, unless a comment misleads. -/
theorem misleads_eq (before : List Token) :
    misleads before = (looksStopped before != followsStop before) := by
  cases hnearest : before.dropWhile Token.isBlank with
  | nil => rw [looksStopped_eq (by rw [hnearest]; rfl), misleads, hnearest, bne_self_eq_false]
  | cons t earlier =>
    obtain ⟨kind, text⟩ := t
    cases kind with
    | lineComment => rw [misleads, looksStopped, hnearest]
    | blockComment =>
      have hlook : endsInStop (⟨.blockComment, text⟩ :: earlier) = false := by
        simp [endsInStop, Token.fullStop]
      simp only [misleads, looksStopped, hnearest, hlook, Bool.false_bne]
    | string | template holes | ident | number | char =>
      rw [looksStopped_eq (by rw [hnearest]; rfl), misleads, hnearest, bne_self_eq_false]

/-- **A name is found if and only if it occurs as an identifier and no property name**,
provided that no comment in front of it misleads. -/
theorem mentions_iff_of_clear (h : ¬ Occurs misleads name code) :
    mentions name code = true ↔ Occurs (fun before => !followsStop before) name code := by
  have hlooks (before : List Token) :
      looksStopped before = followsStop before ∨ misleads before = true := by
    rw [misleads_eq, bne_iff_ne]
    exact Classical.em _
  rw [mentions_iff]
  constructor
  · intro hoccurs
    refine (hoccurs.imp fun before hbefore => ?_).resolve_right h
    rcases hlooks before with heq | hmisleads
    · exact Or.inl (by rwa [← heq])
    · exact Or.inr hmisleads
  · intro hoccurs
    refine (hoccurs.imp fun before hbefore => ?_).resolve_right h
    rcases hlooks before with heq | hmisleads
    · exact Or.inl (by rwa [heq])
    · exact Or.inr hmisleads

/-- Whether a name occurs can be decided hole by hole. -/
theorem not_occurs {p : List Token → Bool}
    (hhere : ∀ k < (tokens code).length, (tokens code)[k]? = some ⟨.ident, name⟩ →
      p ((tokens code).take k).reverse = false)
    (hinside : ∀ hole ∈ (tokens code).flatMap Token.holes, ¬ Occurs p name hole) :
    ¬ Occurs p name code := by
  intro h
  cases h with
  | here k hname hbefore =>
    have hlt := (List.getElem?_eq_some_iff.mp hname).1
    exact Bool.false_ne_true ((hhere k hlt hname).symm.trans hbefore)
  | inside ht hhole hoccurs => exact hinside _ (List.mem_flatMap.mpr ⟨_, ht, hhole⟩) hoccurs

/-- Code in which a property, comments and a spread stand in front of the same name. -/
def sampleCode : Text :=
  Text.ofString "a.tw(\x60$\x7bb.tw\x7d\x60) // c\n || /* tw. */ tw || \x7b ...tw \x7d"

/-- The comment right before the name does not mislead, so the name is found. -/
theorem sampleCode_mentions :
    ¬ Occurs misleads (Text.ofString "tw") sampleCode ∧
      mentions (Text.ofString "tw") sampleCode = true := by
  have hhole : ¬ Occurs misleads (Text.ofString "tw") (Text.ofString "b.tw") := by
    have hnone : (tokens (Text.ofString "b.tw")).flatMap Token.holes = [] := by decide +kernel
    exact not_occurs (by decide +kernel) (by simp [hnone])
  have hclear : ¬ Occurs misleads (Text.ofString "tw") sampleCode := by
    refine not_occurs (by decide +kernel) fun hole h => ?_
    have hholes : (tokens sampleCode).flatMap Token.holes = [Text.ofString "b.tw"] := by
      decide +kernel
    rw [hholes, List.mem_singleton] at h
    rw [h]
    exact hhole
  refine ⟨hclear, (mentions_iff_of_clear hclear).mpr ?_⟩
  exact .here 15 (by decide +kernel) (by decide +kernel)

/-- Not every name that is used is found: the full stop of a comment hides it. -/
theorem hidden_behind_comment :
    ¬ ∀ name code : Text,
      mentions name code = true ↔ Occurs (fun before => !followsStop before) name code := by
  intro h
  have hoccurs : Occurs (fun before => !followsStop before) (Text.ofString "tw")
      (Text.ofString "// x.\ntw") :=
    .here 2 (by decide +kernel) (by decide +kernel)
  have hfound := (h _ _).mpr hoccurs
  rw [mentions_eq_uses] at hfound
  exact absurd hfound (by decide +kernel)

end Scan

end JsxStyle
