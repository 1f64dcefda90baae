import JsxStyle.Proofs.Commas

/-!
# Balanced groups

What the search for a closing bracket accepts can be said without the search: a
group is an opening bracket, items and the corresponding closing bracket, and an
item is a string, a comment, a template, a group or any other byte.  Templates
have groups in their holes, so the notions are defined together.

One byte of lookahead belongs to the grammar.  A slash is a byte of its own only
if what follows does not make it the beginning of a comment, and a line comment
goes on until a line feed follows.  So items are items in front of the byte that
is `next`.

The search knows where it is by a stack of frames.  Whatever it returns, the text
up to there unwinds that stack: for each frame, innermost first, what the frame
may hold and the byte that closes it.  Conversely the search passes over whatever
is an item, in every frame and with every stack.

* `IsGroup`, `AreItems`, `IsItem`, `IsTemplate`, `IsTemplateBody`: the grammar;
* `IsGroup.passes`, `AreItems.passesBefore`: the search passes over what it derives;
* `unwinds_of_closeTail`: the search returns only what it derives;
* `groups_found`: a closing bracket is found exactly where a group ends.
-/

namespace JsxStyle

namespace Scan

open Ascii

/-! ### The grammar -/

/-- What stands between the quotes of a string literal: escaped bytes, and bytes other
than a line feed, a backslash and the quote. -/
inductive StringBody (quote : Byte) : Text → Prop
  | nil : StringBody quote []
  | escape (b : Byte) {t : Text} (h : StringBody quote t) : StringBody quote (backslash :: b :: t)
  | byte {b : Byte} {t : Text} (hline : b ≠ newline) (hslash : b ≠ backslash) (hquote : b ≠ quote)
      (h : StringBody quote t) : StringBody quote (b :: t)

/-- A string literal. -/
def IsString (t : Text) : Prop :=
  ∃ quote body, quote.isQuote = true ∧ StringBody quote body ∧ t = quote :: (body ++ [quote])

/-- A comment between `/*` and the first `*/` behind it. -/
def IsBlockComment (t : Text) : Prop :=
  ∃ body, ¬[star, slash] <:+: body ∧ t = slash :: star :: (body ++ [star, slash])

/-- A comment from `//` up to a line feed or the end, whichever is `next`. -/
def IsLineComment (t : Text) (next : Option Byte) : Prop :=
  ∃ body, newline ∉ body ∧ t = slash :: slash :: body ∧ (next = none ∨ next = some newline)

/-- A byte that opens nothing in front of `next` and is no closing bracket. -/
def IsPlain (b : Byte) (next : Option Byte) : Prop :=
  b.isQuote = false ∧ b ≠ tick ∧ b.closer? = none ∧ b.isCloser = false ∧
    ¬(b = slash ∧ (next = some slash ∨ next = some star))

mutual

/-- A text that is one item in front of the byte `next`. -/
inductive IsItem : (t : Text) → (next : Option Byte) → Prop
  | string {t : Text} {next : Option Byte} (h : IsString t) : IsItem t next
  | blockComment {t : Text} {next : Option Byte} (h : IsBlockComment t) : IsItem t next
  | lineComment {t : Text} {next : Option Byte} (h : IsLineComment t next) : IsItem t next
  | template {t : Text} {next : Option Byte} (h : IsTemplate t) : IsItem t next
  | group {t : Text} {next : Option Byte} (h : IsGroup t) : IsItem t next
  | byte {b : Byte} {next : Option Byte} (h : IsPlain b next) : IsItem [b] next

/-- A text that is items, one behind the other, in front of the byte `next`. -/
inductive AreItems : (t : Text) → (next : Option Byte) → Prop
  | nil {next : Option Byte} : AreItems [] next
  | cons {t u : Text} {next : Option Byte} (hitem : IsItem t (u.head?.or next))
      (hitems : AreItems u next) : AreItems (t ++ u) next

/-- A text that is items between an opening bracket and the corresponding closing one. -/
inductive IsGroup : (t : Text) → Prop
  | mk {opening closing : Byte} {t : Text} (hopen : opening.closer? = some closing)
      (hitems : AreItems t (some closing)) : IsGroup (opening :: (t ++ [closing]))

/-- A text that is a template literal. -/
inductive IsTemplate : (t : Text) → Prop
  | mk {t : Text} (hbody : IsTemplateBody t) : IsTemplate (tick :: (t ++ [tick]))

/-- What stands between the backticks of a template literal: escaped bytes, ordinary
bytes, and holes, which are groups in braces behind a `$`. -/
inductive IsTemplateBody : (t : Text) → Prop
  | nil : IsTemplateBody []
  | escape (b : Byte) {t : Text} (h : IsTemplateBody t) : IsTemplateBody (backslash :: b :: t)
  | byte {b : Byte} {t : Text} (hslash : b ≠ backslash) (htick : b ≠ tick)
      (hhole : ¬(b = dollar ∧ t.head? = some openBrace)) (h : IsTemplateBody t) :
      IsTemplateBody (b :: t)
  | hole {t u : Text} (hgroup : IsGroup (openBrace :: t)) (h : IsTemplateBody u) :
      IsTemplateBody (dollar :: openBrace :: t ++ u)

end

/-! ### What the grammar derives is passed over -/

/-- A string literal ends at the quote behind its body. -/
theorem StringBody.stringTail_eq {quote : Byte} (hquote : quote.isQuote = true) {body : Text}
    (h : StringBody quote body) (post : Text) :
    stringTail quote (body ++ quote :: post) = some (body.length + 1) := by
  induction h with
  | nil =>
    have hne : quote ≠ backslash ∧ quote ≠ newline := by
      simp only [Byte.isQuote, Bool.or_eq_true, beq_iff_eq] at hquote
      rcases hquote with rfl | rfl <;> decide
    rw [List.nil_append, stringTail_cons hne.1, if_neg hne.2, if_pos rfl]
    rfl
  | escape b _ ih =>
    rw [List.cons_append, List.cons_append, stringTail, if_pos rfl, ih]
    rfl
  | byte hline hslash hend _ ih =>
    rw [List.cons_append, stringTail_cons hslash, if_neg hline, if_neg hend, ih]
    rfl

/-- A block comment ends at the first `*/`. -/
theorem commentTail_eq {body : Text} (h : ¬[star, slash] <:+: body) (post : Text) :
    commentTail (body ++ star :: slash :: post) = some (body.length + 2) := by
  induction body with
  | nil => rw [List.nil_append, commentTail, if_pos ⟨rfl, rfl⟩]; rfl
  | cons b rest ih =>
    have hrest : ¬[star, slash] <:+: rest := fun hin =>
      h (hin.trans (List.suffix_cons b rest).isInfix)
    have hend : ¬(b = star ∧ (rest ++ star :: slash :: post).head? = some slash) := by
      rintro ⟨rfl, hslash⟩
      cases rest with
      | nil => exact absurd hslash (by simp +decide)
      | cons c more =>
        obtain rfl : c = slash := Option.some.inj hslash
        exact h ⟨[], more, rfl⟩
    rw [List.cons_append, commentTail, if_neg hend, ih hrest]
    rfl

/-- The search for the end of a group passes over a text in front of the byte `next`. -/
def PassesBefore (next : Option Byte) (t : Text) : Prop :=
  ∀ (close : Byte) (below : List Frame) (post : Text), post.head? = next →
    closeTail (.group close) below (t ++ post) =
      (closeTail (.group close) below post).map (· + t.length)

variable {t u rest : Text} {b : Byte} {next : Option Byte}

/-- What is passed before anything is passed before the byte that comes next. -/
theorem Passes.before (h : Passes t) (next : Option Byte) : PassesBefore next t :=
  fun close below post _ => h close below post

/-- Two texts that are passed in turn are passed as one. -/
theorem PassesBefore.append (ht : PassesBefore (u.head?.or next) t) (hu : PassesBefore next u) :
    PassesBefore next (t ++ u) := by
  intro close below post hpost
  have hhead : (u ++ post).head? = u.head?.or next := by rw [List.head?_append, hpost]
  rw [List.append_assoc, ht close below _ hhead, hu close below post hpost, map_add_add,
    List.length_append, Nat.add_comm u.length]

/-- The search for the end of a group ends at the closing bracket behind its items. -/
theorem PassesBefore.closeTail_eq {opening closing : Byte} (hopen : opening.closer? = some closing)
    (ht : PassesBefore (some closing) t) (below : List Frame) (post : Text) :
    closeTail (.group closing) below (t ++ closing :: post) =
      (leave below post).map (· + t.length) := by
  obtain ⟨hcloser, hlead, -⟩ := closer?_eq_some hopen
  rw [ht closing below (closing :: post) rfl, closeTail_group_cons, hlead, hcloser]
  simp only [if_true]

/-- A bracket around a passed text, closed by its own closing bracket, is passed. -/
theorem PassesBefore.group {opening closing : Byte} (hopen : opening.closer? = some closing)
    (ht : PassesBefore (some closing) t) : Passes (opening :: (t ++ [closing])) := by
  intro close below post
  rw [List.cons_append, List.append_assoc, List.singleton_append, closeTail_group_cons,
    (closer?_eq_some hopen).2.2]
  simp only [ht.closeTail_eq hopen, leave, map_add_add]
  refine map_add_congr ?_
  simp only [List.length_cons, List.length_append, List.length_nil]
  omega

/-- A string literal is passed as a whole. -/
theorem IsString.passes (h : IsString t) : Passes t := by
  obtain ⟨quote, body, hquote, hbody, rfl⟩ := h
  intro close below post
  have htail := hbody.stringTail_eq hquote post
  have hrest : (body ++ quote :: post).drop (body.length + 1) = post := by
    rw [← List.drop_drop, List.drop_left]
    rfl
  rw [List.cons_append, List.append_assoc, List.singleton_append, closeTail_group_cons,
    lead_of_isQuote hquote]
  simp only [htail, Option.bind_some, hrest]
  refine map_add_congr ?_
  simp only [List.length_cons, List.length_append, List.length_nil]

/-- A block comment is passed as a whole. -/
theorem IsBlockComment.passes (h : IsBlockComment t) : Passes t := by
  obtain ⟨body, hbody, rfl⟩ := h
  intro close below post
  have htail := commentTail_eq hbody post
  have hlead : ∀ rest, lead slash (star :: rest) = .blockComment := fun _ => by simp +decide [lead]
  have hrest : (body ++ star :: slash :: post).drop (body.length + 2) = post := by
    rw [← List.drop_drop, List.drop_left]
    rfl
  rw [List.cons_append, List.cons_append, List.append_assoc, closeTail_group_cons, hlead]
  simp only [List.cons_append, List.nil_append, List.drop_succ_cons, List.drop_zero, htail,
    Option.bind_some, hrest]
  refine map_add_congr ?_
  simp only [List.length_cons, List.length_append, List.length_nil]

/-- A line comment is passed up to the line feed or the end of the text behind it. -/
theorem IsLineComment.passesBefore (h : IsLineComment t next) : PassesBefore next t := by
  obtain ⟨body, hbody, rfl, hnext⟩ := h
  intro close below post hpost
  have hlead : ∀ rest, lead slash (slash :: rest) = .lineComment := fun _ => by simp +decide [lead]
  have hrun : (slash :: (body ++ post)).takeWhile (· != newline) = slash :: body := by
    rw [List.takeWhile_cons_of_pos (by decide)]
    refine congrArg _ (takeWhile_append_stop (fun b hb => ?_) fun b hb => ?_)
    · exact bne_iff_ne.mpr fun heq => hbody (heq ▸ hb)
    · rcases hnext with hnone | hline
      · exact absurd (hb.symm.trans (hpost.trans hnone)) (by simp)
      · obtain rfl : newline = b := Option.some.inj (hline.symm.trans (hpost.symm.trans hb))
        decide
  have hline : lineTail (slash :: (body ++ post)) = body.length + 1 := by rw [lineTail, hrun]; rfl
  have hrest : (slash :: (body ++ post)).drop (body.length + 1) = post := by simp
  rw [List.cons_append, List.cons_append, closeTail_group_cons, hlead]
  simp only [hline, hrest]
  rfl

/-- A byte that opens and closes nothing is passed by itself. -/
theorem IsPlain.passesBefore (h : IsPlain b next) : PassesBefore next [b] := by
  obtain ⟨hquote, htick, hopen, hcloser, hslash⟩ := h
  intro close below post hpost
  rw [← hpost, not_and, not_or] at hslash
  have hlead : lead b post = .plain := by
    rw [lead, if_neg (by simp [hquote]), if_neg htick, if_neg fun h => (hslash h.1).1 h.2,
      if_neg fun h => (hslash h.1).2 h.2, hopen]
  rw [List.singleton_append, closeTail_group_cons, hlead, hcloser]
  rfl

/-- The search for the end of a template literal ends at the backtick behind a text. -/
def Closes (t : Text) : Prop :=
  ∀ (below : List Frame) (post : Text),
    closeTail .template below (t ++ tick :: post) = (leave below post).map (· + t.length)

theorem Closes.nil : Closes [] := by
  intro below post
  rw [List.nil_append, closeTail_template_cons, if_neg (by decide), if_pos rfl]
  exact Option.map_id'.symm

/-- An escape at the head of a body leaves its backtick where it was. -/
theorem Closes.escape (b : Byte) (ht : Closes t) : Closes (backslash :: b :: t) := by
  intro below post
  rw [List.cons_append, List.cons_append, closeTail_template_cons, if_pos rfl, List.drop_one,
    List.tail_cons, ht below post, map_add_add]
  rfl

/-- A byte of text at the head of a body leaves its backtick where it was. -/
theorem Closes.byte (hslash : b ≠ backslash) (htick : b ≠ tick)
    (hhole : ¬(b = dollar ∧ t.head? = some openBrace)) (ht : Closes t) : Closes (b :: t) := by
  intro below post
  have hopens : ¬(b = dollar ∧ (t ++ tick :: post).head? = some openBrace) := by
    rintro ⟨rfl, hbrace⟩
    cases t with
    | nil => exact absurd hbrace (by simp +decide)
    | cons c t => exact hhole ⟨rfl, hbrace⟩
  rw [List.cons_append, closeTail_template_cons, if_neg hslash, if_neg htick, if_neg hopens,
    ht below post, map_add_add]
  rfl

/-- A balanced hole at the head of a body leaves its backtick where it was. -/
theorem Closes.hole {closing : Byte} (hopen : openBrace.closer? = some closing)
    (ht : PassesBefore (some closing) t) (hu : Closes u) :
    Closes (dollar :: openBrace :: (t ++ [closing]) ++ u) := by
  intro below post
  obtain rfl : closeBrace = closing := Option.some.inj hopen
  have hinside := ht.closeTail_eq hopen (.template :: below) (u ++ tick :: post)
  simp only [List.cons_append, List.append_assoc, List.nil_append]
  rw [closeTail_template_cons, if_neg (by decide), if_neg (by decide), if_pos ⟨rfl, rfl⟩,
    List.drop_one, List.tail_cons, hinside, leave, hu below post]
  simp only [map_add_add]
  refine map_add_congr ?_
  simp only [List.length_cons, List.length_append]
  omega

/-- A template whose body closes is passed as a whole. -/
theorem Closes.passes (ht : Closes t) : Passes (tick :: (t ++ [tick])) := by
  intro close below post
  have hlead : ∀ rest, lead tick rest = .template := fun _ => by simp +decide [lead]
  rw [List.cons_append, List.append_assoc, List.singleton_append, closeTail_group_cons, hlead]
  simp only [ht (.group close :: below) post, leave, map_add_add]
  refine map_add_congr ?_
  simp only [List.length_cons, List.length_append, List.length_nil]
  omega

mutual

/-- An item is passed over in front of the byte that it is an item in front of. -/
theorem IsItem.passesBefore : ∀ {t : Text} {next : Option Byte}, IsItem t next →
    PassesBefore next t
  | _, next, .string h => h.passes.before next
  | _, next, .blockComment h => h.passes.before next
  | _, _, .lineComment h => h.passesBefore
  | _, next, .template h => h.passes.before next
  | _, next, .group h => h.passes.before next
  | _, _, .byte h => h.passesBefore

/-- A run of items is passed, by induction on the items. -/
theorem AreItems.passesBefore : ∀ {t : Text} {next : Option Byte}, AreItems t next →
    PassesBefore next t
  | _, next, .nil => Passes.nil.before next
  | _, _, .cons hitem hitems => hitem.passesBefore.append hitems.passesBefore

/-- A balanced group is passed as a whole. -/
theorem IsGroup.passes : ∀ {t : Text}, IsGroup t → Passes t
  | _, .mk hopen hitems => hitems.passesBefore.group hopen

/-- A balanced template is passed as a whole. -/
theorem IsTemplate.passes : ∀ {t : Text}, IsTemplate t → Passes t
  | _, .mk hbody => hbody.closes.passes

/-- The body of a balanced template closes at its own backtick. -/
theorem IsTemplateBody.closes : ∀ {t : Text}, IsTemplateBody t → Closes t
  | _, .nil => .nil
  | _, .escape b h => h.closes.escape b
  | _, .byte hslash htick hhole h => h.closes.byte hslash htick hhole
  | _, .hole (.mk hopen hitems) h => .hole hopen hitems.passesBefore h.closes

end

/-! ### What is returned, the grammar derives -/

/-- Where the rest of a string is found to close, it is a body and the quote. -/
theorem exists_of_stringTail {quote : Byte} {n : Nat} (h : stringTail quote t = some n) :
    ∃ body post, t = body ++ quote :: post ∧ n = body.length + 1 ∧ StringBody quote body := by
  replace h := stringTrace h
  induction h with
  | closing => exact ⟨[], _, rfl, rfl, .nil⟩
  | @escape c _ _ _ ih =>
    obtain ⟨body, post, rfl, rfl, hbody⟩ := ih
    exact ⟨backslash :: c :: body, post, rfl, rfl, hbody.escape c⟩
  | @byte b _ _ hslash hline hquote _ ih =>
    obtain ⟨body, post, rfl, rfl, hbody⟩ := ih
    exact ⟨b :: body, post, rfl, rfl, hbody.byte hline hslash hquote⟩

/-- Where a comment is found to close, its end is the first star with a slash behind. -/
theorem exists_of_commentTail {n : Nat} (h : commentTail t = some n) :
    ∃ body post, t = body ++ star :: slash :: post ∧ n = body.length + 2 ∧
      ¬[star, slash] <:+: body := by
  induction t generalizing n with
  | nil => exact absurd h (by simp [commentTail])
  | cons b rest ih =>
    rw [commentTail] at h
    split at h
    case isTrue hend =>
      obtain ⟨rfl, hslash⟩ := hend
      obtain ⟨post, rfl⟩ := List.head?_eq_some_iff.mp hslash
      exact ⟨[], post, rfl, (Option.some.inj h).symm, by simp⟩
    case isFalse hend =>
      obtain ⟨m, hm, rfl⟩ := Option.map_eq_some_iff.mp h
      obtain ⟨body, post, rfl, rfl, hbody⟩ := ih hm
      refine ⟨b :: body, post, rfl, rfl, fun hin => ?_⟩
      rcases List.infix_cons_iff.mp hin with hprefix | hin
      · obtain ⟨more, hmore⟩ := hprefix
        obtain ⟨rfl, rfl⟩ := List.cons.inj hmore
        exact hend ⟨rfl, rfl⟩
      · exact hbody hin

/-- Whether a frame may hold a text up to the byte that ends it. -/
def Frame.Holds : Frame → Text → Prop
  | .group close, t => AreItems t (some close)
  | .template, t => IsTemplateBody t

/-- Every open frame holds the empty text. -/
theorem Frame.holds_nil (top : Frame) : top.Holds [] := by
  cases top with
  | group close => exact AreItems.nil
  | template => exact IsTemplateBody.nil

/-- A text that ends the frame `top` and then the frames `below`, the innermost first. -/
inductive Unwinds : (top : Frame) → (below : List Frame) → (t : Text) → Prop
  | last {top : Frame} {t : Text} (h : top.Holds t) : Unwinds top [] (t ++ [top.closing])
  | next {top outer : Frame} {below : List Frame} {t u : Text} (h : top.Holds t)
      (hrest : Unwinds outer below u) : Unwinds top (outer :: below) (t ++ top.closing :: u)

namespace Unwinds

variable {top : Frame} {below : List Frame} {close : Byte}

/-- Up to the byte that ends it, a frame may hold something else instead. -/
theorem cut (h : Unwinds top below u) : ∃ t v, u = t ++ top.closing :: v ∧ top.Holds t ∧
    ∀ t', top.Holds t' → Unwinds top below (t' ++ top.closing :: v) := by
  cases h with
  | last h => exact ⟨_, [], rfl, h, fun _ => .last⟩
  | next h hrest => exact ⟨_, _, rfl, h, fun _ h' => .next h' hrest⟩

theorem ne_nil (h : Unwinds top below u) : u ≠ [] := by
  cases h <;> simp

/-- One more item at the front of a group. -/
theorem item (h : Unwinds (.group close) below u) (ht : IsItem t u.head?) :
    Unwinds (.group close) below (t ++ u) := by
  obtain ⟨v, w, rfl, hholds, hcut⟩ := h.cut
  have hhead : (v ++ close :: w).head? = v.head?.or (some close) := List.head?_append ..
  rw [← List.append_assoc]
  exact hcut _ (.cons (hhead ▸ ht) hholds)

/-- A group inside a group. -/
theorem group {inner : Byte} (hopen : b.closer? = some inner)
    (h : Unwinds (.group inner) (.group close :: below) u) :
    Unwinds (.group close) below (b :: u) := by
  cases h with
  | @next _ _ _ v w hholds hrest =>
    have hgroup := hrest.item (.group (.mk hopen hholds))
    rwa [List.cons_append, List.append_assoc] at hgroup

/-- A template inside a group. -/
theorem template (h : Unwinds .template (.group close :: below) u) :
    Unwinds (.group close) below (tick :: u) := by
  cases h with
  | @next _ _ _ v w hholds hrest =>
    have htemplate := hrest.item (.template (.mk hholds))
    rwa [List.cons_append, List.append_assoc] at htemplate

/-- A hole in a template. -/
theorem hole (h : Unwinds (.group closeBrace) (.template :: below) u) :
    Unwinds .template below (dollar :: openBrace :: u) := by
  cases h with
  | @next _ _ _ v w hholds hrest =>
    obtain ⟨x, y, rfl, hbody, hcut⟩ := hrest.cut
    have hhole := hcut _ (.hole (.mk rfl hholds) hbody)
    rwa [List.cons_append, List.cons_append, List.cons_append, List.cons_append, List.append_assoc,
      List.append_assoc] at hhole

/-- An escape read in an open template leaves the frames as they are. -/
theorem escape (b : Byte) (h : Unwinds .template below u) :
    Unwinds .template below (backslash :: b :: u) := by
  obtain ⟨v, w, rfl, hbody, hcut⟩ := h.cut
  exact hcut _ (.escape b hbody)

/-- A byte of text read in an open template leaves the frames as they are. -/
theorem byte (hslash : b ≠ backslash) (htick : b ≠ tick)
    (hhole : ¬(b = dollar ∧ u.head? = some openBrace)) (h : Unwinds .template below u) :
    Unwinds .template below (b :: u) := by
  obtain ⟨v, w, rfl, hbody, hcut⟩ := h.cut
  refine hcut _ (.byte hslash htick (fun hopens => hhole ⟨hopens.1, ?_⟩) hbody)
  rw [List.head?_append, hopens.2]
  rfl

end Unwinds

/-- The line comment that a slash begins, in front of what is behind its line. -/
theorem isLineComment_of_lead {u post : Text} (h : lead b rest = .lineComment)
    (hdrop : rest.drop (lineTail rest) = u ++ post) (hu : u ≠ []) :
    IsLineComment (b :: rest.take (lineTail rest)) u.head? := by
  obtain ⟨rfl, hslash⟩ := slashes_of_lead h
  obtain ⟨more, rfl⟩ := List.head?_eq_some_iff.mp hslash
  have htail : lineTail (slash :: more) = lineTail more + 1 := by
    rw [lineTail, List.takeWhile_cons_of_pos (by decide)]
    rfl
  refine ⟨more.take (lineTail more), fun hmem => ?_, by rw [htail, List.take_succ_cons], ?_⟩
  · have hrun : more.take (lineTail more) = more.takeWhile (· != newline) :=
      (List.prefix_iff_eq_take.mp (List.takeWhile_prefix _)).symm
    rw [hrun] at hmem
    exact absurd (List.all_eq_true.mp List.all_takeWhile _ hmem) (by decide)
  · obtain ⟨c, v, rfl⟩ := List.exists_cons_of_ne_nil hu
    have hhead : ((slash :: more).drop (lineTail (slash :: more))).head? = some c := by
      rw [hdrop]
      rfl
    have hend : bne c newline = false := @not_of_drop_takeWhile (· != newline) _ c hhead
    exact .inr (congrArg some (by simpa using hend))

/-- A byte that opens and closes nothing is an item. -/
theorem isPlain_of_lead (h : lead b rest = .plain) (hcloser : ¬b.isCloser = true) :
    IsPlain b rest.head? := by
  unfold lead at h
  unfold IsPlain
  grind

/-- What the search returns ends the frames that it is inside of. -/
theorem unwinds_of_closeTail {top : Frame} {below : List Frame} {n : Nat}
    (h : closeTail top below t = some n) :
    ∃ u post, t = u ++ post ∧ n = u.length ∧ Unwinds top below u := by
  replace h := closeTrace h
  induction h with
  | @last top rest => exact ⟨[top.closing], rest, rfl, rfl, .last (Frame.holds_nil top)⟩
  | @next top _ _ _ _ _ ih =>
    obtain ⟨u, post, rfl, rfl, hu⟩ := ih
    exact ⟨top.closing :: u, post, rfl, rfl, .next (Frame.holds_nil top) hu⟩
  | @escape _ c _ _ _ ih =>
    obtain ⟨u, post, rfl, rfl, hu⟩ := ih
    exact ⟨backslash :: c :: u, post, rfl, rfl, hu.escape c⟩
  | hole _ ih =>
    obtain ⟨u, post, rfl, rfl, hu⟩ := ih
    exact ⟨dollar :: openBrace :: u, post, rfl, rfl, hu.hole⟩
  | @byte _ b _ _ hslash htick hhole _ ih =>
    obtain ⟨u, post, rfl, rfl, hu⟩ := ih
    refine ⟨b :: u, post, rfl, rfl, hu.byte hslash htick fun hopens => hhole ⟨hopens.1, ?_⟩⟩
    rw [List.head?_append, hopens.2]
    rfl
  | @string _ b _ _ _ _ hquote htail _ ih =>
    obtain ⟨u, post, hrest, rfl, hu⟩ := ih
    obtain ⟨body, behind, rfl, rfl, hbody⟩ := exists_of_stringTail htail
    obtain rfl : behind = u ++ post := by
      rw [← hrest, ← List.drop_drop, List.drop_left]
      rfl
    refine ⟨b :: (body ++ [b]) ++ u, post, by simp, ?_,
      hu.item (.string ⟨b, body, hquote, hbody, rfl⟩)⟩
    simp
    omega
  | template _ ih =>
    obtain ⟨u, post, rfl, rfl, hu⟩ := ih
    exact ⟨tick :: u, post, rfl, rfl, hu.template⟩
  | @lineComment _ b _ rest _ hlead _ ih =>
    obtain ⟨u, post, hrest, rfl, hu⟩ := ih
    have hline := isLineComment_of_lead hlead hrest hu.ne_nil
    refine ⟨_ ++ u, post, ?_, ?_, hu.item (.lineComment hline)⟩
    · rw [List.append_assoc, ← hrest, List.cons_append, List.take_append_drop]
    · rw [List.length_append, List.length_cons, List.length_take_of_le (lineTail_le_length rest),
        Nat.add_comm]
  | blockComment htail _ ih =>
    obtain ⟨u, post, hrest, rfl, hu⟩ := ih
    obtain ⟨body, behind, rfl, rfl, hbody⟩ := exists_of_commentTail htail
    obtain rfl : behind = u ++ post := by
      rw [← hrest, ← List.drop_drop, List.drop_left]
      rfl
    refine ⟨slash :: star :: (body ++ [star, slash]) ++ u, post, by simp, ?_,
      hu.item (.blockComment ⟨body, hbody, rfl⟩)⟩
    simp
    omega
  | @group _ _ b _ _ _ hopen _ ih =>
    obtain ⟨u, post, rfl, rfl, hu⟩ := ih
    exact ⟨b :: u, post, rfl, rfl, hu.group hopen⟩
  | @plain _ b _ _ _ hlead hcloser _ ih =>
    obtain ⟨u, post, rfl, rfl, hu⟩ := ih
    have hplain := isPlain_of_lead hlead hcloser
    obtain ⟨c, v, rfl⟩ := List.exists_cons_of_ne_nil hu.ne_nil
    exact ⟨b :: c :: v, post, rfl, rfl, hu.item (.byte hplain)⟩

/-- Whether the text from `pos` up to and including `close` is a group. -/
def GroupAt (src : Text) (pos close : Nat) : Prop :=
  close < src.length ∧ IsGroup (src.slice pos (close + 1))

variable {src : Text} {pos close : Nat}

/-- A bracket that the scanner matches opens a balanced group up to there. -/
theorem groupAt_of_matching (h : matching src pos = some close) : GroupAt src pos close := by
  obtain ⟨b, rest, hdrop⟩ : ∃ b rest, src.drop pos = b :: rest := by
    cases hdrop : src.drop pos with
    | nil => exact absurd h (by simp [matching, hdrop])
    | cons b rest => exact ⟨b, rest, rfl⟩
  obtain ⟨closing, hopen⟩ : ∃ closing, b.closer? = some closing := by
    cases hopen : b.closer? with
    | none => exact absurd h (by simp [matching, hdrop, hopen])
    | some closing => exact ⟨closing, rfl⟩
  rw [matching_of_closer hdrop hopen] at h
  obtain ⟨n, hn, rfl⟩ := Option.map_eq_some_iff.mp h
  obtain ⟨u, post, rfl, rfl, hu⟩ := unwinds_of_closeTail hn
  cases hu with
  | @last _ t hholds =>
    have hslice : src.slice pos (pos + (t ++ [closing]).length + 1) = b :: (t ++ [closing]) :=
      slice_of_drop_eq hdrop (by rw [List.length_cons, Nat.add_assoc])
    have hlength := congrArg List.length hdrop
    rw [List.length_drop, List.length_cons, List.length_append] at hlength
    exact ⟨by omega, hslice ▸ .mk hopen hholds⟩

/-- A balanced group at a place is matched by the scanner at its own end. -/
theorem GroupAt.matching_eq (h : GroupAt src pos close) : matching src pos = some close := by
  obtain ⟨hlt, hgroup⟩ := h
  obtain ⟨u, hu⟩ : ∃ u, u = src.slice pos (close + 1) := ⟨_, rfl⟩
  have hdrop : src.drop pos = u ++ (src.drop pos).drop (close + 1 - pos) := by
    rw [hu, Text.slice, List.take_append_drop]
  have hlength : u.length = close + 1 - pos := by
    rw [hu, Text.slice, List.length_take_of_le (by rw [List.length_drop]; omega)]
  rw [← hu] at hgroup
  cases hgroup with
  | @mk opening closing t hopen hitems =>
    rw [List.cons_append, List.append_assoc, List.singleton_append] at hdrop
    rw [List.length_cons, List.length_append, List.length_singleton] at hlength
    rw [matching_of_closer hdrop hopen, hitems.passesBefore.closeTail_eq hopen, leave,
      Option.map_some, Option.map_some, Option.some.injEq]
    omega

/-- **A closing bracket is found exactly where a group ends.**  From one offset at most
one group begins, and where none does, nothing is found. -/
theorem groups_found (src : Text) (pos : Nat) :
    (∀ close, matching src pos = some close ↔ GroupAt src pos close) ∧
      ((∃! close, GroupAt src pos close) ∨
        matching src pos = none ∧ ∀ close, ¬GroupAt src pos close) := by
  have hfound (close : Nat) : matching src pos = some close ↔ GroupAt src pos close :=
    ⟨groupAt_of_matching, GroupAt.matching_eq⟩
  refine ⟨hfound, ?_⟩
  cases hmatching : matching src pos with
  | none => exact .inr ⟨rfl, fun close h => absurd (hmatching.symm.trans h.matching_eq) (by simp)⟩
  | some close =>
    refine .inl ⟨close, groupAt_of_matching hmatching, fun other h => ?_⟩
    exact Option.some.inj (h.matching_eq.symm.trans hmatching)

end Scan

end JsxStyle
