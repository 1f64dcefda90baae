import JsxStyle.Proofs.Faults
import JsxStyle.Proofs.Scanners

/-!
# Where a group is cut

The search for the closing bracket of a group walks over items: a literal, a
comment or a group inside as a whole, any other byte alone.  It comes to the
first byte that begins no item, and that byte is the closing bracket or there is
none.  So the items of a group lie one behind the other up to where it closes.

The search for commas walks over the same items, with one exception.  To it a line
comment is two slashes and then code.  As long as the comments that the group
holds directly show nothing to such a reader, it stops where the other one stops
and finds the commas that are items of their own.  A quotation mark in a comment
is enough to part the two: the literal that seems to begin there does not end, and
the group, although it closes, is not cut at all.

* `closeTail_items`, `matching_eq_some_iff`: a group closes where its items end;
* `segmentsFrom_quiet`: what the search for commas does not see;
* `segments_of_matching`: a group is cut at the commas among its items;
* `comment_uncut`: a comment that keeps a group from being cut.
-/

namespace JsxStyle

namespace Scan

open Ascii

/-- Bytes of the item that begins with `b`: a literal, a comment or a group as a
whole, any other byte alone.  A closing bracket begins none, and neither does what
does not end. -/
def itemLength (b : Byte) (rest : Text) : Option Nat :=
  match lead b rest with
  | .string quote => (stringTail quote rest).map (· + 1)
  | .template => (closeTail .template [] rest).map (· + 1)
  | .lineComment => some (lineTail rest + 1)
  | .blockComment => (commentTail (rest.drop 1)).map (· + 2)
  | .group close => (closeTail (.group close) [] rest).map (· + 1)
  | .plain => if b.isCloser then none else some 1

/-- No item is empty. -/
theorem itemLength_pos {b : Byte} {rest : Text} {n : Nat} (h : itemLength b rest = some n) :
    0 < n := by
  unfold itemLength at h
  split at h <;> grind [Option.map_eq_some_iff]

/-- The items from offset `i` on. -/
def items (src : Text) (i : Nat) : List Span :=
  match _hdrop : src.drop i with
  | [] => []
  | b :: rest =>
    match _hitem : itemLength b rest with
    | none => []
    | some n => ⟨i, i + n⟩ :: items src (i + n)
termination_by src.length - i
decreasing_by
  have hlt := Read.lt_length_of_drop_eq_cons _hdrop
  have hpos := itemLength_pos _hitem
  omega

/-- The offset behind items that begin at an offset. -/
def itemsEnd : Nat → List Span → Nat
  | i, [] => i
  | _, s :: rest => itemsEnd s.hi rest

variable {src rest : Text} {b : Byte} {i n pos close : Nat}

/-- At the end of a text there are no more items. -/
theorem items_nil (h : src.drop i = []) : items src i = [] := by
  rw [items]
  split
  case h_1 => rfl
  case h_2 hcons => exact absurd (h.symm.trans hcons) (by simp)

/-- Where none begins, there are none. -/
theorem items_stop (h : src.drop i = b :: rest) (hitem : itemLength b rest = none) :
    items src i = [] := by
  rw [items]
  split
  case h_1 => rfl
  case h_2 b' rest' hcons =>
    obtain ⟨rfl, rfl⟩ := List.cons.inj (hcons.symm.trans h)
    split
    case h_1 => rfl
    case h_2 hsome => exact absurd (hitem.symm.trans hsome) (by simp)

/-- An item, and those behind it. -/
theorem items_cons (h : src.drop i = b :: rest) (hitem : itemLength b rest = some n) :
    items src i = ⟨i, i + n⟩ :: items src (i + n) := by
  rw [items]
  split
  case h_1 hnil => exact absurd (h.symm.trans hnil) (by simp)
  case h_2 b' rest' hcons =>
    obtain ⟨rfl, rfl⟩ := List.cons.inj (hcons.symm.trans h)
    split
    case h_1 hnone => exact absurd (hitem.symm.trans hnone) (by simp)
    case h_2 n' hsome =>
      obtain rfl := Option.some.inj (hitem.symm.trans hsome)
      rfl

/-- Induction along the items of a text. -/
@[elab_as_elim]
theorem item_induction (src : Text) {motive : Nat → Prop}
    (nil : ∀ i, src.drop i = [] → motive i)
    (stop : ∀ i b rest, src.drop i = b :: rest → itemLength b rest = none → motive i)
    (cons : ∀ i b rest n, src.drop i = b :: rest → itemLength b rest = some n →
      motive (i + n) → motive i) (i : Nat) : motive i := by
  cases h : src.drop i with
  | nil => exact nil i h
  | cons b rest =>
    cases hitem : itemLength b rest with
    | none => exact stop i b rest h hitem
    | some n => exact cons i b rest n h hitem (item_induction src nil stop cons (i + n))
termination_by src.length - i
decreasing_by
  have hlt := Read.lt_length_of_drop_eq_cons h
  have hpos := itemLength_pos hitem
  omega

/-- The closing bracket of a group that is open closes it. -/
theorem closeTail_closer {c : Byte} (hopen : b.closer? = some c) (rest : Text) :
    closeTail (.group c) [] (c :: rest) = some 1 := by
  obtain ⟨hcloser, hlead, -⟩ := closer?_eq_some hopen
  rw [closeTail_group_cons, hlead]
  simp [hcloser, leave]

/-- Short of the closing bracket, the search for it takes one item. -/
theorem closeTail_item {c : Byte} (hb : b ≠ c) (rest : Text) :
    closeTail (.group c) [] (b :: rest) =
      (itemLength b rest).bind fun n =>
        (closeTail (.group c) [] ((b :: rest).drop n)).map (· + n) := by
  have hnest (top : Frame) :
      (closeTail top [.group c] rest).map (· + 1) =
        ((closeTail top [] rest).map (· + 1)).bind fun n =>
          (closeTail (.group c) [] ((b :: rest).drop n)).map (· + n) := by
    rw [closeTail_cons, Option.bind_map, Option.map_bind]
    exact congrArg (Option.bind _) (funext fun n => map_add_add ..)
  rw [closeTail_group_cons, itemLength]
  cases hlead : lead b rest with
  | string quote =>
    dsimp only
    rw [Option.bind_map]
    rfl
  | template => exact hnest .template
  | lineComment => rfl
  | blockComment =>
    dsimp only
    rw [Option.bind_map]
    rfl
  | group inner => exact hnest (.group inner)
  | plain =>
    dsimp only
    rw [if_neg hb]
    split <;> rfl

/-- A closing bracket begins no item. -/
theorem itemLength_closer {c : Byte} (hopen : b.closer? = some c) (rest : Text) :
    itemLength c rest = none := by
  obtain ⟨hcloser, hlead, -⟩ := closer?_eq_some hopen
  rw [itemLength, hlead]
  exact if_pos hcloser

/-- The search for a closing bracket ends where the items do. -/
theorem closeTail_items {c : Byte} (hopen : b.closer? = some c) (src : Text) (i : Nat) :
    (closeTail (.group c) [] (src.drop i)).map (i + ·) =
      if src[itemsEnd i (items src i)]? = some c then some (itemsEnd i (items src i) + 1)
      else none := by
  induction i using item_induction src with
  | nil i h =>
    have hbyte : src[i]? = none := List.getElem?_eq_none (List.drop_eq_nil_iff.mp h)
    rw [items_nil h, h, itemsEnd, hbyte, closeTail]
    rfl
  | stop i a rest h hitem =>
    rw [items_stop h hitem, h, itemsEnd, (getElem?_of_drop_eq_cons h).1]
    by_cases ha : a = c
    · rw [ha, closeTail_closer hopen, if_pos rfl]
      rfl
    · rw [closeTail_item ha, hitem, if_neg fun heq => ha (Option.some.inj heq)]
      rfl
  | cons i a rest n h hitem ih =>
    have ha : a ≠ c := by
      rintro rfl
      exact absurd (hitem.symm.trans (itemLength_closer hopen rest)) (by simp)
    rw [items_cons h hitem, itemsEnd, ← ih, h, closeTail_item ha, hitem, Option.bind_some, ← h,
      List.drop_drop,
      Option.map_map]
    refine congrArg (Option.map · _) (funext fun k => ?_)
    show i + (k + n) = i + n + k
    omega

/-- A bracket is matched behind the items in it if its closing bracket is there. -/
theorem matching_of_items {c : Byte} (hb : src[pos]? = some b) (hopen : b.closer? = some c) :
    matching src pos =
      if src[itemsEnd (pos + 1) (items src (pos + 1))]? = some c then
        some (itemsEnd (pos + 1) (items src (pos + 1)))
      else none := by
  have hsearch := closeTail_items hopen src (pos + 1)
  rw [matching_of_closer (drop_eq_cons_of_getElem? hb) hopen]
  cases hfound : closeTail (.group c) [] (src.drop (pos + 1)) with
  | none =>
    rw [hfound] at hsearch
    split at hsearch
    case isTrue => exact absurd hsearch (by simp)
    case isFalse hbyte =>
      rw [if_neg hbyte]
      rfl
  | some n =>
    rw [hfound] at hsearch
    split at hsearch
    case isTrue hbyte =>
      have hend : pos + 1 + n = itemsEnd (pos + 1) (items src (pos + 1)) + 1 :=
        Option.some.inj hsearch
      rw [if_pos hbyte, Option.map_some, Option.some.injEq]
      omega
    case isFalse => exact absurd hsearch (by simp)

/-- **A group closes where its items end**, if its closing bracket stands there. -/
theorem matching_eq_some_iff : matching src pos = some close ↔
    ∃ b c, src[pos]? = some b ∧ b.closer? = some c ∧
      itemsEnd (pos + 1) (items src (pos + 1)) = close ∧ src[close]? = some c := by
  constructor
  · intro h
    obtain ⟨b, rest, hdrop⟩ : ∃ b rest, src.drop pos = b :: rest := by
      cases hdrop : src.drop pos with
      | nil => exact absurd h (by simp [matching, hdrop])
      | cons b rest => exact ⟨b, rest, rfl⟩
    obtain ⟨c, hopen⟩ : ∃ c, b.closer? = some c := by
      cases hopen : b.closer? with
      | none => exact absurd h (by simp [matching, hdrop, hopen])
      | some c => exact ⟨c, rfl⟩
    have hb := (getElem?_of_drop_eq_cons hdrop).1
    rw [matching_of_items hb hopen] at h
    split at h
    case isTrue hbyte =>
      obtain rfl := Option.some.inj h
      exact ⟨b, c, hb, hopen, rfl, hbyte⟩
    case isFalse => exact absurd h (by simp)
  · rintro ⟨b, c, hb, hopen, rfl, hbyte⟩
    rw [matching_of_items hb hopen, if_pos hbyte]

/-- The items from an offset on do not end before it. -/
theorem le_itemsEnd (src : Text) (i : Nat) : i ≤ itemsEnd i (items src i) := by
  induction i using item_induction src with
  | nil i h =>
    rw [items_nil h]
    exact Nat.le_refl i
  | stop i b rest h hitem =>
    rw [items_stop h hitem]
    exact Nat.le_refl i
  | cons i b rest n h hitem ih =>
    rw [items_cons h hitem, itemsEnd]
    exact Nat.le_trans (Nat.le_add_right i n) ih

/-! ### Commas -/

/-- Whether the search for commas sees nothing in a text: no comma, nothing that
opens a literal or a group, and no block comment. -/
def isQuiet (u : Text) : Bool :=
  (u.all fun b => !b.isQuote && b != tick && b.closer?.isNone && b != comma) &&
    !Text.hasWord [slash, star] u

/-- Whether the search for commas reads an item as the search for closing brackets
does: behind its first slash, a line comment has to be quiet. -/
def isReadAlike (u : Text) : Bool :=
  !([slash, slash].isPrefixOf u) || isQuiet (u.drop 1)

/-- The offsets of the items that are commas. -/
def commas (src : Text) (parts : List Span) : List Nat :=
  (parts.filter fun s => s.of src == [comma]).map Span.lo

/-- The ranges between `lo` and `hi` that separators of one byte leave. -/
def between (lo hi : Nat) : List Nat → List Span
  | [] => [⟨lo, hi⟩]
  | mid :: more => ⟨lo, mid⟩ :: between (mid + 1) hi more

/-- Ranges without the last one if that is white space. -/
def withoutBlankEnd (src : Text) : List Span → List Span
  | [] => []
  | [s] => if (s.of src).isBlank then [] else [s]
  | s :: s' :: more => s :: withoutBlankEnd src (s' :: more)

/-- Only the last of several ranges is left out for being blank. -/
theorem withoutBlankEnd_between (src : Text) (s : Span) (lo hi : Nat) (mids : List Nat) :
    withoutBlankEnd src (s :: between lo hi mids) =
      s :: withoutBlankEnd src (between lo hi mids) := by
  cases mids <;> rfl

variable {hi start : Nat}

/-- At the end of the range one part is left. -/
theorem segmentsFrom_end (src : Text) (start i : Nat) :
    segmentsFrom src i start i = some (withoutBlankEnd src [⟨start, i⟩]) := by
  rw [segmentsFrom, if_neg (Nat.lt_irrefl i), withoutBlankEnd, Span.of]
  split <;> rfl

/-- A comma is an item by itself. -/
theorem itemLength_comma (rest : Text) : itemLength comma rest = some 1 := by
  have hlead : lead comma rest = .plain := by simp +decide [lead]
  rw [itemLength, hlead]
  rfl

/-- At a comma a part ends and the next begins. -/
theorem segmentsFrom_comma (hdrop : src.drop i = comma :: rest) (hlt : i < hi) :
    segmentsFrom src hi start i =
      (segmentsFrom src hi (i + 1) (i + 1)).map (⟨start, i⟩ :: ·) := by
  have hlead : lead comma rest = .plain := by simp +decide [lead]
  rw [segmentsFrom, if_pos hlt, hdrop]
  simp only [hlead, if_pos]

/-- The search for commas takes an item as a whole, if that is no line comment. -/
theorem segmentsFrom_item (hdrop : src.drop i = b :: rest) (hlt : i < hi) (hcomma : b ≠ comma)
    (hitem : itemLength b rest = some n) (hline : lead b rest ≠ .lineComment) :
    segmentsFrom src hi start i = segmentsFrom src hi start (i + n) := by
  have hstep {k m : Nat} (h : k + m = n) : segmentsFrom src hi start (i + m + k) =
      segmentsFrom src hi start (i + n) := by
    rw [Nat.add_assoc, Nat.add_comm m, h]
  rw [segmentsFrom, if_pos hlt, hdrop]
  unfold itemLength at hitem
  cases hlead : lead b rest with
  | string quote | template | blockComment | group inner =>
    simp only [hlead] at hitem ⊢
    obtain ⟨k, hk, hn⟩ := Option.map_eq_some_iff.mp hitem
    rw [hk]
    exact hstep hn
  | lineComment => exact absurd hlead hline
  | plain =>
    simp only [hlead] at hitem ⊢
    split at hitem
    · exact absurd hitem (by simp)
    · rw [if_neg hcomma, Option.some.inj hitem]

/-- In a quiet text the search for commas goes on byte by byte. -/
theorem segmentsFrom_quiet {u post : Text} (hquiet : isQuiet u = true)
    (hpost : post.head? ≠ some star) (hdrop : src.drop i = u ++ post)
    (hhi : i + u.length ≤ hi) :
    segmentsFrom src hi start i = segmentsFrom src hi start (i + u.length) := by
  induction u generalizing i with
  | nil => rfl
  | cons b rest ih =>
    simp only [isQuiet, List.all_cons, Text.hasWord, Bool.and_eq_true, Bool.not_eq_true',
      Bool.or_eq_false_iff, bne_iff_ne, ne_eq, Option.isNone_iff_eq_none] at hquiet
    obtain ⟨⟨⟨⟨⟨hquote, htick⟩, hcloser⟩, hcomma⟩, hrest⟩, hword, hmore⟩ := hquiet
    have hblock : ¬(b = slash ∧ (rest ++ post).head? = some star) := by
      rintro ⟨rfl, hstar⟩
      cases rest with
      | nil => exact hpost hstar
      | cons c more =>
        obtain rfl : c = star := Option.some.inj hstar
        exact absurd hword (by simp)
    have hlead : lead b (rest ++ post) = .lineComment ∨ lead b (rest ++ post) = .plain := by
      rw [lead, hquote, if_neg Bool.false_ne_true, if_neg htick, if_neg hblock, hcloser]
      split
      · exact .inl rfl
      · exact .inr rfl
    have hnext : segmentsFrom src hi start i = segmentsFrom src hi start (i + 1) := by
      have hlt : i < hi := by
        rw [List.length_cons] at hhi
        omega
      rw [segmentsFrom, if_pos hlt, hdrop, List.cons_append]
      rcases hlead with hlead | hlead <;> simp only [hlead, if_neg hcomma]
    rw [List.length_cons] at hhi ⊢
    rw [hnext, ih (by simp [isQuiet, hrest, hmore]) (getElem?_of_drop_eq_cons hdrop).2 (by omega),
      Nat.add_assoc, Nat.add_comm 1]

/-- The text of an item. -/
theorem of_item (hdrop : src.drop i = b :: rest) (n : Nat) :
    (Span.mk i (i + n)).of src = (b :: rest).take n := by
  rw [Span.of, Text.slice, hdrop, Nat.add_sub_cancel_left]

/-- A line comment is taken as a whole if it is quiet, if only byte by byte. -/
theorem segmentsFrom_line (hdrop : src.drop i = b :: rest) (hlead : lead b rest = .lineComment)
    (halike : isReadAlike ((Span.mk i (i + n)).of src) = true) (hitem : itemLength b rest = some n)
    (hhi : i + n ≤ hi) :
    segmentsFrom src hi start i = segmentsFrom src hi start (i + n) := by
  obtain rfl : lineTail rest + 1 = n := by
    rw [itemLength, hlead] at hitem
    exact Option.some.inj hitem
  have hquiet : isQuiet (rest.take (lineTail rest)) = true := by
    obtain ⟨rfl, hslash⟩ := slashes_of_lead hlead
    obtain ⟨more, rfl⟩ := List.head?_eq_some_iff.mp hslash
    have htail : lineTail (slash :: more) = lineTail more + 1 := by
      rw [lineTail, List.takeWhile_cons_of_pos (by decide)]
      rfl
    rw [of_item hdrop, htail, List.take_succ_cons, List.take_succ_cons] at halike
    rw [htail, List.take_succ_cons]
    exact halike
  have hpost : (rest.drop (lineTail rest)).head? ≠ some star := fun hstar =>
    absurd (not_of_drop_takeWhile hstar) (by decide)
  have hbehind : src.drop (i + 1) = rest.take (lineTail rest) ++ rest.drop (lineTail rest) := by
    rw [(getElem?_of_drop_eq_cons hdrop).2, List.take_append_drop]
  have hlen : (rest.take (lineTail rest)).length = lineTail rest :=
    List.length_take_of_le (lineTail_le_length rest)
  have hslash : segmentsFrom src hi start i = segmentsFrom src hi start (i + 1) := by
    rw [segmentsFrom, if_pos (by omega), hdrop]
    simp only [hlead]
  rw [hslash, segmentsFrom_quiet hquiet hpost hbehind (by omega), hlen, Nat.add_assoc,
    Nat.add_comm 1]

/-- An item is a comma when it begins with one. -/
theorem of_item_eq_comma_iff (hdrop : src.drop i = b :: rest) (hitem : itemLength b rest = some n) :
    (Span.mk i (i + n)).of src = [comma] ↔ b = comma := by
  rw [of_item hdrop]
  constructor
  · intro h
    cases n with
    | zero => exact absurd h (by simp)
    | succ m => exact (List.cons.inj h).1
  · rintro rfl
    obtain rfl : 1 = n := Option.some.inj ((itemLength_comma rest).symm.trans hitem)
    rfl

/-- The commas among items are the first, if it is one, and those among the others. -/
theorem commas_cons (hdrop : src.drop i = b :: rest) (hitem : itemLength b rest = some n)
    (parts : List Span) :
    commas src (⟨i, i + n⟩ :: parts) =
      if b = comma then i :: commas src parts else commas src parts := by
  rw [commas, List.filter_cons]
  simp only [beq_iff_eq, of_item_eq_comma_iff hdrop hitem]
  split <;> rfl

/-- Where all items are read alike, the range is cut at the commas among them. -/
theorem segmentsFrom_items (halike : ∀ s ∈ items src i, isReadAlike (s.of src) = true)
    (hhi : itemsEnd i (items src i) = hi) (start : Nat) :
    segmentsFrom src hi start i =
      some (withoutBlankEnd src (between start hi (commas src (items src i)))) := by
  induction i using item_induction src generalizing start with
  | nil i h =>
    rw [items_nil h] at hhi ⊢
    rw [← hhi, itemsEnd, segmentsFrom_end]
    rfl
  | stop i b rest h hitem =>
    rw [items_stop h hitem] at hhi ⊢
    rw [← hhi, itemsEnd, segmentsFrom_end]
    rfl
  | cons i b rest n h hitem ih =>
    rw [items_cons h hitem] at halike hhi ⊢
    obtain ⟨hfirst, hrest⟩ := List.forall_mem_cons.mp halike
    change itemsEnd (i + n) (items src (i + n)) = hi at hhi
    have hlt : i < hi := by
      have hpos := itemLength_pos hitem
      have hle := le_itemsEnd src (i + n)
      omega
    rw [commas_cons h hitem]
    by_cases hcomma : b = comma
    · subst hcomma
      obtain rfl : 1 = n := Option.some.inj ((itemLength_comma rest).symm.trans hitem)
      rw [if_pos rfl, segmentsFrom_comma h hlt, ih hrest hhi, between, withoutBlankEnd_between]
      rfl
    · rw [if_neg hcomma, ← ih hrest hhi]
      by_cases hline : lead b rest = .lineComment
      · have hend : i + n ≤ hi := hhi ▸ le_itemsEnd src (i + n)
        exact segmentsFrom_line h hline hfirst hitem hend
      · exact segmentsFrom_item h hlt hcomma hitem hline

/-- **A group is cut at the commas among its items**, and at no others, if the
line comments among them are quiet. -/
theorem segments_of_matching (h : matching src pos = some close)
    (halike : ∀ s ∈ items src (pos + 1), isReadAlike (s.of src) = true) :
    itemsEnd (pos + 1) (items src (pos + 1)) = close ∧
      segments src (pos + 1) close =
        some (withoutBlankEnd src
          (between (pos + 1) close (commas src (items src (pos + 1))))) := by
  obtain ⟨b, c, -, -, hend, -⟩ := matching_eq_some_iff.mp h
  exact ⟨hend, segmentsFrom_items halike hend (pos + 1)⟩

/-- A group with a comma in everything that can hide one, and a comment with none. -/
def sampleGroup : Text :=
  Text.ofString "[a, 'b,', \x60c,$\x7b[d, e]\x7d\x60, /* , */ (f, g), // no more\n h, ]"

/-- The sample is cut at its five bare commas, and the blank last part is left out. -/
theorem sampleGroup_cut :
    matching sampleGroup 0 = some 56 ∧ segments sampleGroup 1 56 =
      some [⟨1, 2⟩, ⟨3, 8⟩, ⟨9, 23⟩, ⟨24, 39⟩, ⟨40, 54⟩] := by
  have hclose : matching sampleGroup 0 = some 56 := by decide +kernel
  have halike : ∀ s ∈ items sampleGroup 1, isReadAlike (s.of sampleGroup) = true := by
    decide +kernel
  refine ⟨hclose, (segments_of_matching hclose halike).2.trans ?_⟩
  decide +kernel

/-- Not every group is cut at the commas among its items: a quotation mark in a line
comment keeps it from being cut at all. -/
theorem comment_uncut :
    ¬ ∀ (src : Text) (pos close : Nat), matching src pos = some close →
      segments src (pos + 1) close =
        some (withoutBlankEnd src
          (between (pos + 1) close (commas src (items src (pos + 1))))) := by
  intro h
  have hcut := h (Text.ofString "[// '\n]") 0 6 (by decide +kernel)
  exact absurd hcut (by decide +kernel)

end Scan

end JsxStyle
