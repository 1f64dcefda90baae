import JsxStyle.Proofs.Scans
import JsxStyle.Text.Escape
import Mathlib.Data.List.Forall2

/-!
# What scanners pass over

A scanner that looks for the end of a group passes over a text if it comes out
behind it in the state that it went in with, whatever follows.  Bytes that open
and close nothing are passed over, and so are a string literal, a group around a
text that is passed over, and a template literal whose holes are.  The same goes
for the scanner that looks for commas, as long as there is none at the top level.

A value in a string literal is found again: the literal ends where it was meant
to end, and cooking its escapes gives the value back.

* `stringTail_escape`, `unescape_escape`: an escaped value up to its quote;
* `Passes.group`, `Passes.quoted`, `Passes.template`: what is passed over;
* `Steps.group`, `Steps.quoted`, `Steps.template`: the same between commas;
* `templateTail_body`: a template literal comes apart into its chunks and holes.
-/

namespace JsxStyle

open Ascii

namespace Text

/-- Whether a text is an identifier. -/
def isIdentifier : Text → Bool
  | [] => false
  | b :: rest => b.isIdentStart && rest.all Byte.isIdentChar

/-- An identifier is a byte that it may begin with, and bytes that it may go on with. -/
theorem exists_of_isIdentifier {name : Text} (h : name.isIdentifier = true) :
    ∃ b rest, name = b :: rest ∧ b.isIdentStart = true ∧ ∀ c ∈ rest, c.isIdentChar = true := by
  cases name with
  | nil => exact absurd h (by simp [isIdentifier])
  | cons b rest =>
    rw [isIdentifier, Bool.and_eq_true, List.all_eq_true] at h
    exact ⟨b, rest, rfl, h.1, h.2⟩

/-- What an identifier may begin with, it may also go on with. -/
theorem isIdentChar_of_isIdentifier {name : Text} (h : name.isIdentifier = true) :
    ∀ b ∈ name, b.isIdentChar = true := by
  obtain ⟨b, rest, rfl, hb, hrest⟩ := exists_of_isIdentifier h
  exact List.forall_mem_cons.mpr ⟨Byte.isIdentChar_of_isIdentStart hb, hrest⟩

/-- Whether a text can stand between the holes of a template as it is: without a
backtick or the opening of a hole, unless a backslash takes away their meaning,
and without a backslash at the end that would do so to what follows. -/
def isChunk : Text → Bool
  | [] => true
  | b :: rest =>
    if b = backslash then
      match rest with
      | [] => false
      | _ :: rest' => isChunk rest'
    else b != tick && !(b == dollar && rest.head? == some openBrace) && isChunk rest

/-- In a chunk a backslash goes with the byte behind it. -/
theorem isChunk_escape (c : Byte) (rest : Text) :
    isChunk (backslash :: c :: rest) = isChunk rest := by
  rw [isChunk, if_pos rfl]

/-- In a chunk any other byte stands for itself. -/
theorem isChunk_cons {b : Byte} (hb : b ≠ backslash) (rest : Text) :
    isChunk (b :: rest) =
      (b != tick && !(b == dollar && rest.head? == some openBrace) && isChunk rest) := by
  rw [isChunk.eq_def]
  simp only [if_neg hb]

/-- A character that is one byte. -/
theorem escape_cons {delimiter : Char} {q : Byte} (hq : ofChar delimiter = [q]) (b : Byte)
    (rest : Text) : escape delimiter (b :: rest) =
      if b = backslash ∨ b = q then backslash :: b :: escape delimiter rest
      else b :: escape delimiter rest := by
  have hlead : (ofChar delimiter).isPrefixOf (b :: rest) = true ↔ b = q := by
    rw [hq, List.isPrefixOf_iff_prefix, List.cons_prefix_cons]
    simp [eq_comm]
  rw [escape]
  simp only [hlead]

/-- A byte that is no backslash stands for itself. -/
theorem unescape_cons {b : Byte} (hb : b ≠ backslash) (rest : Text) :
    unescape (b :: rest) = b :: unescape rest := by
  cases rest with
  | nil => rfl
  | cons c rest => rw [unescape, if_neg hb]

/-- Cooking the escapes of a value gives the value back. -/
theorem unescape_escape {delimiter : Char} {q : Byte} (hq : ofChar delimiter = [q])
    (hquote : q.isQuote = true) (value : Text) : unescape (escape delimiter value) = value := by
  have hvalue {b : Byte} (hb : b = backslash ∨ b = q) : escapeValue b = [b] := by
    rcases hb with rfl | rfl
    · decide
    · simp only [Byte.isQuote, Bool.or_eq_true, beq_iff_eq] at hquote
      rcases hquote with rfl | rfl <;> decide
  induction value with
  | nil => rfl
  | cons b rest ih =>
    rw [escape_cons hq]
    split
    case isTrue hb =>
      rw [unescape, if_pos rfl, hvalue hb, ih]
      rfl
    case isFalse hb => rw [unescape_cons fun e => hb (Or.inl e), ih]

/-- White space in one byte is skipped as one byte. -/
theorem leadingBlank_of_isBlankByte {b : Byte} (hb : isBlankByte b = true) (rest : Text) :
    leadingBlank (b :: rest) = 1 := by
  rcases rest with _ | ⟨c, _ | ⟨d, rest⟩⟩ <;> simp [leadingBlank, hb]

end Text

namespace Scan

open Text

/-- Where the quote does not occur, nothing closes a string. -/
theorem stringTail_eq_none {q : Byte} {t : Text} (h : q ∉ t) : stringTail q t = none := by
  fun_induction stringTail q t <;> simp_all

/-- A literal ends at the quote that was put behind the escaped value. -/
theorem stringTail_escape {delimiter : Char} {q : Byte} (hq : ofChar delimiter = [q])
    (hquote : q.isQuote = true) {value : Text} (hline : newline ∉ value) (post : Text) :
    stringTail q (escape delimiter value ++ q :: post) =
      some ((escape delimiter value).length + 1) := by
  have hne : q ≠ backslash ∧ q ≠ newline := by
    simp only [Byte.isQuote, Bool.or_eq_true, beq_iff_eq] at hquote
    rcases hquote with rfl | rfl <;> decide
  induction value with
  | nil =>
    rw [escape, List.nil_append, stringTail_cons hne.1, if_neg hne.2, if_pos rfl]
    rfl
  | cons b rest ih =>
    have hb : b ≠ newline := fun e => hline (e ▸ List.mem_cons_self)
    have hrest := ih fun h => hline (List.mem_cons_of_mem _ h)
    rw [escape_cons hq]
    split
    case isTrue =>
      rw [List.cons_append, List.cons_append, stringTail, if_pos rfl, hrest]
      rfl
    case isFalse hplain =>
      rw [not_or] at hplain
      rw [List.cons_append, stringTail_cons hplain.1, if_neg hb, if_neg hplain.2, hrest]
      rfl

/-- A byte that opens and closes nothing. -/
def isInert (b : Byte) : Bool :=
  !b.isQuote && b != tick && b != slash && b.closer?.isNone && !b.isCloser

/-- An inert byte opens and closes nothing. -/
theorem lead_of_isInert {b : Byte} (hb : isInert b = true) (rest : Text) :
    lead b rest = .plain ∧ b.isCloser = false := by
  simp only [isInert, Bool.and_eq_true, Bool.not_eq_true', bne_iff_ne, ne_eq,
    Option.isNone_iff_eq_none] at hb
  obtain ⟨⟨⟨⟨hquote, htick⟩, hslash⟩, hcloser⟩, hclosing⟩ := hb
  refine ⟨?_, hclosing⟩
  rw [lead, if_neg (by simp [hquote]), if_neg htick, if_neg fun h => hslash h.1,
    if_neg fun h => hslash h.1, hcloser]

/-- What is decided of the 256 bytes one by one holds of every byte. -/
theorem forall_byte {p : Byte → Prop} (h : ∀ n : Fin 256, p (UInt8.ofFin n)) (b : Byte) : p b :=
  h b.toFin

/-- The bytes of identifiers are inert, and none of them is a comma. -/
theorem isInert_of_isIdentChar {b : Byte} (hb : b.isIdentChar = true) :
    isInert b = true ∧ b ≠ comma := by
  have hall : ∀ b : Byte, b.isIdentChar = true → isInert b = true ∧ b ≠ comma :=
    forall_byte (by decide +kernel)
  exact hall b hb

/-- A run of characters ends where one follows that is none of them. -/
theorem takeWhile_append_stop {p : Byte → Bool} {u post : Text} (hu : ∀ b ∈ u, p b = true)
    (hpost : ∀ b ∈ post.head?, p b = false) : (u ++ post).takeWhile p = u := by
  rw [List.takeWhile_append_of_pos hu]
  cases post with
  | nil => simp
  | cons b rest => rw [List.takeWhile_cons, hpost b rfl]; simp

/-- An identifier ends where no character follows that it could go on with. -/
theorem identLength_append {name post : Text} (hname : name.isIdentifier = true)
    (hpost : ∀ b ∈ post.head?, b.isIdentChar = false) :
    identLength (name ++ post) = name.length := by
  obtain ⟨b, rest, rfl, hb, hrest⟩ := exists_of_isIdentifier hname
  rw [List.cons_append, identLength, if_pos hb, takeWhile_append_stop hrest hpost,
    List.length_cons, Nat.add_comm]

/-- The search for the end of a group passes over a text. -/
def Passes (t : Text) : Prop :=
  ∀ (close : Byte) (below : List Frame) (post : Text),
    closeTail (.group close) below (t ++ post) =
      (closeTail (.group close) below post).map (· + t.length)

/-- Counts that are added one after the other are added at once. -/
theorem map_add_add (x : Option Nat) (m n : Nat) :
    (x.map (· + m)).map (· + n) = x.map (· + (m + n)) := by
  rw [Option.map_map]
  refine congrArg (x.map ·) (funext fun k => ?_)
  exact Nat.add_assoc ..

/-- Counts that are equal add up to the same. -/
theorem map_add_congr {x : Option Nat} {m n : Nat} (h : m = n) :
    x.map (· + m) = x.map (· + n) := by
  rw [h]

theorem Passes.nil : Passes [] := by
  intro close below post
  simp

/-- What is passed over piece by piece is passed over. -/
theorem Passes.append {t u : Text} (ht : Passes t) (hu : Passes u) : Passes (t ++ u) := by
  intro close below post
  rw [List.append_assoc, ht, hu, map_add_add, List.length_append, Nat.add_comm u.length]

/-- An inert byte is passed over. -/
theorem Passes.inert {b : Byte} (hb : isInert b = true) : Passes [b] := by
  intro close below post
  obtain ⟨hlead, hcloser⟩ := lead_of_isInert hb post
  rw [List.singleton_append, closeTail_group_cons, hlead, hcloser]
  rfl

/-- Inert bytes are passed over. -/
theorem Passes.inerts {t : Text} (h : ∀ b ∈ t, isInert b = true) : Passes t := by
  induction t with
  | nil => exact .nil
  | cons b rest ih =>
    have hb := Passes.inert (h b List.mem_cons_self)
    exact hb.append (ih fun c hc => h c (List.mem_cons_of_mem _ hc))

/-- The brackets that a group can have. -/
theorem closer?_eq_some {b close : Byte} (h : b.closer? = some close) :
    close.isCloser = true ∧ (∀ rest, lead close rest = .plain) ∧
      ∀ rest, lead b rest = .group close := by
  have hcases : b = openParen ∧ close = closeParen ∨ b = openBracket ∧ close = closeBracket ∨
      b = openBrace ∧ close = closeBrace := by
    unfold Byte.closer? at h
    grind
  rcases hcases with ⟨rfl, rfl⟩ | ⟨rfl, rfl⟩ | ⟨rfl, rfl⟩
  all_goals exact ⟨rfl, fun _ => by simp +decide [lead], fun _ => by simp +decide [lead]⟩

/-- The bracket at an offset is closed where the search behind it ends. -/
theorem matching_of_closer {src : Text} {pos : Nat} {b close : Byte} {rest : Text}
    (h : src.drop pos = b :: rest) (hb : b.closer? = some close) :
    matching src pos = (closeTail (.group close) [] rest).map (pos + ·) := by
  rw [matching, h]
  simp [hb]

/-- Behind a text that is passed over, the bracket that closes the group ends it. -/
theorem Passes.closeTail_eq {t : Text} (ht : Passes t) {b close : Byte}
    (hb : b.closer? = some close) (below : List Frame) (post : Text) :
    closeTail (.group close) below (t ++ close :: post) =
      (leave below post).map (· + t.length) := by
  obtain ⟨hcloser, hlead, -⟩ := closer?_eq_some hb
  rw [ht, closeTail_group_cons, hlead, hcloser]
  simp only [if_true]

/-- A text that is passed over has its closing bracket right behind it. -/
theorem Passes.matching_eq {t : Text} (ht : Passes t) {b close : Byte}
    (hb : b.closer? = some close) (post : Text) :
    closeTail (.group close) [] (t ++ close :: post) = some (t.length + 1) := by
  rw [ht.closeTail_eq hb, leave, Option.map_some, Nat.add_comm]

/-- A group is passed over if what it holds is. -/
theorem Passes.group {t : Text} (ht : Passes t) {b close : Byte} (hb : b.closer? = some close) :
    Passes (b :: t ++ [close]) := by
  intro outer below post
  obtain ⟨-, -, hopen⟩ := closer?_eq_some hb
  rw [List.append_assoc, List.singleton_append, List.cons_append, closeTail_group_cons, hopen]
  simp only [ht.closeTail_eq hb, leave, map_add_add]
  refine map_add_congr ?_
  simp only [List.length_cons, List.length_append, List.length_nil]
  omega

/-- A quote begins a string that it ends. -/
theorem lead_of_isQuote {q : Byte} (hq : q.isQuote = true) (rest : Text) :
    lead q rest = .string q := by
  rw [lead, if_pos hq]

/-- A string literal is passed over. -/
theorem Passes.quoted {delimiter : Char} {q : Byte} (hq : ofChar delimiter = [q])
    (hquote : q.isQuote = true) {value : Text} (hline : newline ∉ value) :
    Passes (Text.quoted delimiter value) := by
  intro close below post
  have htail := stringTail_escape hq hquote hline post
  have hrest : (escape delimiter value ++ q :: post).drop ((escape delimiter value).length + 1) =
      post := by
    rw [← List.drop_drop, List.drop_left]
    rfl
  rw [Text.quoted, hq, List.append_assoc, List.append_assoc, List.singleton_append,
    List.singleton_append, closeTail_group_cons, lead_of_isQuote hquote]
  simp only [htail, Option.bind_some, hrest]
  refine map_add_congr ?_
  simp only [List.length_cons, List.length_append, List.length_nil]
  omega

/-- A text is no longer than what it is joined with others to. -/
theorem length_le_join {sep u : Text} {us : List Text} (hu : u ∈ us) :
    u.length ≤ (Text.join sep us).length := by
  induction us with
  | nil => exact absurd hu List.not_mem_nil
  | cons v vs ih =>
    cases vs with
    | nil =>
      obtain rfl := List.mem_singleton.mp hu
      simp [Text.join]
    | cons w ws =>
      have hlength : (Text.join sep (v :: w :: ws)).length =
          v.length + sep.length + (Text.join sep (w :: ws)).length := by
        rw [Text.join, List.intercalate_cons_cons, List.length_append, List.length_append]
        rfl
      obtain rfl | h := List.mem_cons.mp hu
      · omega
      · have hle := ih h
        omega

/-- A list that is written with commas is passed over if its members are. -/
theorem Passes.join {us : List Text} (h : ∀ u ∈ us, Passes u) :
    Passes (Text.join [comma, space] us) := by
  have hsep : Passes [comma, space] := .inerts (List.all_eq_true.mp (by decide))
  induction us with
  | nil => exact .nil
  | cons u us ih =>
    have hu := h u List.mem_cons_self
    have hrest := ih fun v hv => h v (List.mem_cons_of_mem _ hv)
    cases us with
    | nil => rwa [Text.join, List.intercalate_singleton]
    | cons v vs =>
      rw [Text.join, List.intercalate_cons_cons]
      exact (hu.append hsep).append hrest

/-! ### Templates -/

/-- The text of a template, backticks aside: its chunks with the texts of the
holes between them. -/
def templateBody : List Text → List Text → Text
  | [], _ => []
  | chunk :: chunks, [] => chunk ++ templateBody chunks []
  | chunk :: chunks, hole :: holes =>
    chunk ++ dollar :: openBrace :: (hole ++ closeBrace :: templateBody chunks holes)

/-- A hole is no longer than the template that it is in. -/
theorem length_le_templateBody {chunks holes : List Text}
    (hcount : chunks.length = holes.length + 1) {hole : Text} (hhole : hole ∈ holes) :
    hole.length ≤ (templateBody chunks holes).length := by
  induction holes generalizing chunks with
  | nil => exact absurd hhole List.not_mem_nil
  | cons first holes ih =>
    obtain ⟨chunk, chunks, rfl⟩ := List.exists_cons_of_length_eq_add_one hcount
    simp only [templateBody, List.length_append, List.length_cons]
    obtain rfl | h := List.mem_cons.mp hhole
    · omega
    · have hle := ih (by simpa using hcount) h
      omega

/-- A byte of a chunk that no backslash stands before neither ends the template
nor opens a hole. -/
theorem plain_of_isChunk {b : Byte} {rest post : Text} (hb : b ≠ backslash)
    (h : Text.isChunk (b :: rest) = true) (hpost : post.head? ≠ some openBrace) :
    b ≠ tick ∧ ¬ (b = dollar ∧ (rest ++ post).head? = some openBrace) ∧ rest.isChunk = true := by
  rw [isChunk_cons hb] at h
  simp only [Bool.and_eq_true, bne_iff_ne, ne_eq, Bool.not_eq_true', Bool.and_eq_false_iff,
    beq_eq_false_iff_ne] at h
  obtain ⟨⟨htick, hhole⟩, hrest⟩ := h
  refine ⟨htick, ?_, hrest⟩
  rintro ⟨rfl, hhead⟩
  cases rest with
  | nil => exact hpost hhead
  | cons c rest => exact hhole.elim (fun h => h rfl) fun h => h hhead

/-- A chunk that does not end in half an opening of a hole is passed over. -/
theorem closeTail_chunk {chunk : Text} (h : chunk.isChunk = true) (below : List Frame) {post : Text}
    (hpost : post.head? ≠ some openBrace) :
    closeTail .template below (chunk ++ post) =
      (closeTail .template below post).map (· + chunk.length) := by
  induction chunk using escape_induction with
  | nil => simp
  | lone => exact absurd h (by decide)
  | escape c rest ih =>
    rw [isChunk_escape] at h
    rw [List.cons_append, closeTail_template_cons, if_pos rfl, List.cons_append, List.drop_one,
      List.tail_cons, ih h, map_add_add]
    rfl
  | byte b rest hb ih =>
    obtain ⟨htick, hopen, hrest⟩ := plain_of_isChunk hb h hpost
    rw [List.cons_append, closeTail_template_cons, if_neg hb, if_neg htick, if_neg hopen, ih hrest,
      map_add_add]
    rfl

/-- A template ends at the backtick behind its body. -/
theorem closeTail_body {chunks holes : List Text} (hcount : chunks.length = holes.length + 1)
    (hchunks : ∀ c ∈ chunks, c.isChunk = true) (hholes : ∀ h ∈ holes, Passes h)
    (below : List Frame) (post : Text) :
    closeTail .template below (templateBody chunks holes ++ tick :: post) =
      (leave below post).map (· + (templateBody chunks holes).length) := by
  induction holes generalizing chunks with
  | nil =>
    obtain ⟨chunk, rfl⟩ := List.length_eq_one_iff.mp hcount
    rw [templateBody, templateBody, List.append_nil,
      closeTail_chunk (hchunks chunk List.mem_cons_self) below (by simp +decide),
      closeTail_template_cons, if_neg (by decide), if_pos rfl]
  | cons hole holes ih =>
    obtain ⟨chunk, chunks, rfl⟩ := List.exists_cons_of_length_eq_add_one hcount
    have hrest := ih (by simpa using hcount) (fun c hc => hchunks c (List.mem_cons_of_mem _ hc))
      fun h hh => hholes h (List.mem_cons_of_mem _ hh)
    have hhole := (hholes hole List.mem_cons_self).closeTail_eq (b := openBrace) rfl
      (.template :: below) (templateBody chunks holes ++ tick :: post)
    rw [templateBody, List.append_assoc,
      closeTail_chunk (hchunks chunk List.mem_cons_self) below (by simp +decide),
      List.cons_append, closeTail_template_cons, if_neg (by decide), if_neg (by decide),
      if_pos ⟨rfl, rfl⟩, List.cons_append, List.drop_one, List.tail_cons, List.append_assoc,
      List.cons_append, hhole, leave, hrest]
    simp only [map_add_add]
    refine map_add_congr ?_
    simp only [List.length_cons, List.length_append]
    omega

/-- A template is passed over if what is in its holes is. -/
theorem Passes.template {chunks holes : List Text} (hcount : chunks.length = holes.length + 1)
    (hchunks : ∀ c ∈ chunks, c.isChunk = true) (hholes : ∀ h ∈ holes, Passes h) :
    Passes (tick :: templateBody chunks holes ++ [tick]) := by
  intro close below post
  rw [List.append_assoc, List.singleton_append, List.cons_append, closeTail_group_cons,
    show lead tick _ = .template from by simp +decide [lead]]
  simp only [closeTail_body hcount hchunks hholes, leave, map_add_add]
  refine map_add_congr ?_
  simp only [List.length_cons, List.length_append, List.length_nil]
  omega

/-- A template comes apart behind a chunk. -/
theorem templateTail_chunk {chunk : Text} (h : chunk.isChunk = true) (pos : Nat) {post : Text}
    (hpost : post.head? ≠ some openBrace) {p : TemplateParts}
    (hp : templateTail (pos + chunk.length) post = some p) {first : Text} {chunks : List Text}
    (hfirst : p.chunks = first :: chunks) :
    templateTail pos (chunk ++ post) =
      some { p with chunks := (chunk ++ first) :: chunks } := by
  induction chunk using escape_induction generalizing pos with
  | nil => rw [List.nil_append, List.nil_append, ← hfirst]; exact hp
  | lone => exact absurd h (by decide)
  | escape c rest ih =>
    rw [isChunk_escape] at h
    have hrest := ih h (pos + 2) (by rw [← hp]; congr 1; simp; omega)
    rw [List.cons_append, templateTail, if_pos rfl, List.cons_append, List.drop_one,
      List.tail_cons, hrest]
    rfl
  | byte b rest hb ih =>
    obtain ⟨htick, hopen, hrest⟩ := plain_of_isChunk hb h hpost
    have htail := ih hrest (pos + 1) (by rw [← hp]; congr 1; simp; omega)
    rw [List.cons_append, templateTail, if_neg hb, if_neg htick, if_neg hopen, htail]
    rfl

/-- Whether a byte can be the first of what is written for an operand. -/
def opensOperand (b : Byte) : Bool :=
  b.isIdentStart || b.isQuote || b == openBracket

/-- The range `s` of a text holds `u` behind white space, and no name goes on behind it. -/
def Shows (src : Text) (s : Span) (u : Text) : Prop :=
  ∃ blanks post, src.drop s.lo = blanks ++ u ++ post ∧ s.hi = s.lo + blanks.length + u.length ∧
    (∀ b ∈ blanks, b.isSpace = true) ∧ ∀ b ∈ post.head?, b.isIdentChar = false

/-- Behind a piece of a text that is known stands what is known to follow it. -/
theorem drop_add_of_eq {src u v : Text} {lo : Nat} (h : src.drop lo = u ++ v) :
    src.drop (lo + u.length) = v := by
  rw [← List.drop_drop, h, List.drop_left]

/-- A template comes apart behind a hole. -/
theorem templateTail_hole {hole : Text} (h : Passes hole) (pos : Nat) {rest : Text}
    {p : TemplateParts} (hp : templateTail (pos + hole.length + 3) rest = some p) :
    templateTail pos (dollar :: openBrace :: (hole ++ closeBrace :: rest)) =
      some (p.consHole ⟨pos + 2, pos + 2 + hole.length⟩) := by
  have hend := h.matching_eq (b := openBrace) rfl rest
  have hrest : (openBrace :: (hole ++ closeBrace :: rest)).drop (hole.length + 1 + 1) = rest := by
    rw [List.drop_succ_cons, ← List.drop_drop, List.drop_left]
    rfl
  have hpos : pos + 2 + (hole.length + 1) = pos + hole.length + 3 := by omega
  rw [templateTail, if_neg (by decide), if_neg (by decide), if_pos ⟨rfl, rfl⟩, List.drop_one,
    List.tail_cons, hend]
  simp only [hrest, hpos, hp, Option.map_some, Option.some.injEq]
  congr 2
  omega

/-- A template literal comes apart into its chunks and the ranges of its holes. -/
theorem templateTail_body {chunks holes : List Text} (hcount : chunks.length = holes.length + 1)
    (hchunks : ∀ c ∈ chunks, c.isChunk = true) (hholes : ∀ h ∈ holes, Passes h)
    {src post : Text} {pos : Nat}
    (hsrc : src.drop pos = templateBody chunks holes ++ tick :: post) :
    ∃ ranges, templateTail pos (templateBody chunks holes ++ tick :: post) =
        some ⟨chunks, ranges, pos + (templateBody chunks holes).length + 1⟩ ∧
      List.Forall₂ (Shows src) ranges holes := by
  induction holes generalizing chunks pos with
  | nil =>
    obtain ⟨chunk, rfl⟩ := List.length_eq_one_iff.mp hcount
    refine ⟨[], ?_, .nil⟩
    have hend : templateTail (pos + chunk.length) (tick :: post) =
        some ⟨[[]], [], pos + chunk.length + 1⟩ := by
      rw [templateTail, if_neg (by decide), if_pos rfl]
    rw [templateBody, templateBody, List.append_nil,
      templateTail_chunk (hchunks chunk List.mem_cons_self) pos (by simp +decide) hend rfl,
      List.append_nil]
  | cons hole holes ih =>
    obtain ⟨chunk, chunks, rfl⟩ := List.exists_cons_of_length_eq_add_one hcount
    rw [templateBody, List.append_assoc, List.cons_append, List.cons_append, List.append_assoc,
      List.cons_append] at hsrc ⊢
    have hinside := drop_add_of_eq (u := [dollar, openBrace]) (drop_add_of_eq hsrc)
    have hbehind := drop_add_of_eq (u := [closeBrace]) (drop_add_of_eq hinside)
    obtain ⟨ranges, hparts, hranges⟩ := ih (by simpa using hcount)
      (fun c hc => hchunks c (List.mem_cons_of_mem _ hc))
      (fun h hh => hholes h (List.mem_cons_of_mem _ hh)) hbehind
    have hstart : pos + chunk.length + hole.length + 3 =
        pos + chunk.length + [dollar, openBrace].length + hole.length + [closeBrace].length := by
      simp only [List.length_cons, List.length_nil]
      omega
    have hhole := templateTail_hole (hholes hole List.mem_cons_self) (pos + chunk.length)
      (hstart ▸ hparts)
    have hshown : Shows src ⟨pos + chunk.length + 2, pos + chunk.length + 2 + hole.length⟩ hole :=
      ⟨[], _, hinside, rfl, by simp, by simp +decide⟩
    refine ⟨_, (templateTail_chunk (hchunks chunk List.mem_cons_self) pos (by simp +decide) hhole
      rfl).trans ?_, .cons hshown hranges⟩
    simp [TemplateParts.consHole]
    omega

/-! ### Commas -/

/-- The search for commas passes over a text, wherever it stands before `hi`. -/
def Steps (t : Text) : Prop :=
  ∀ (src post : Text) (hi start i : Nat), src.drop i = t ++ post → i + t.length ≤ hi →
    segmentsFrom src hi start i = segmentsFrom src hi start (i + t.length)

theorem Steps.nil : Steps [] := by
  intro src post hi start i hdrop hle
  rfl

/-- What is stepped over piece by piece is stepped over. -/
theorem Steps.append {t u : Text} (ht : Steps t) (hu : Steps u) : Steps (t ++ u) := by
  intro src post hi start i hdrop hle
  rw [List.append_assoc] at hdrop
  rw [List.length_append] at hle
  rw [ht _ _ _ _ _ hdrop (by omega), hu _ _ _ _ _ (drop_add_of_eq hdrop) (by omega),
    List.length_append, Nat.add_assoc]

/-- An inert byte is stepped over unless it is a comma. -/
theorem Steps.inert {b : Byte} (hb : isInert b = true) (hcomma : b ≠ comma) : Steps [b] := by
  intro src post hi start i hdrop hle
  obtain ⟨hlead, -⟩ := lead_of_isInert hb post
  rw [List.singleton_append] at hdrop
  rw [segmentsFrom, if_pos (Nat.lt_of_succ_le hle), hdrop]
  simp only [hlead, if_neg hcomma]
  rfl

/-- Inert bytes are stepped over if there is no comma among them. -/
theorem Steps.inerts {t : Text} (h : ∀ b ∈ t, isInert b = true ∧ b ≠ comma) : Steps t := by
  induction t with
  | nil => exact .nil
  | cons b rest ih =>
    obtain ⟨hb, hcomma⟩ := h b List.mem_cons_self
    have hfirst := Steps.inert hb hcomma
    exact hfirst.append (ih fun c hc => h c (List.mem_cons_of_mem _ hc))

/-- What is passed over may hold commas if a group is around it. -/
theorem Steps.group {t : Text} (ht : Passes t) {b close : Byte} (hb : b.closer? = some close) :
    Steps (b :: t ++ [close]) := by
  intro src post hi start i hdrop hle
  obtain ⟨-, -, hopen⟩ := closer?_eq_some hb
  have hend := ht.matching_eq hb post
  simp only [List.length_append, List.length_cons, List.length_nil] at hle ⊢
  rw [List.append_assoc, List.singleton_append, List.cons_append] at hdrop
  rw [segmentsFrom, if_pos (by omega), hdrop]
  simp only [hopen, hend]
  refine congrArg (segmentsFrom src hi start) ?_
  omega

/-- A string literal is stepped over, with whatever commas are in it. -/
theorem Steps.quoted {delimiter : Char} {q : Byte} (hq : ofChar delimiter = [q])
    (hquote : q.isQuote = true) {value : Text} (hline : newline ∉ value) :
    Steps (Text.quoted delimiter value) := by
  intro src post hi start i hdrop hle
  have htail := stringTail_escape hq hquote hline post
  simp only [Text.quoted, hq, List.append_assoc, List.cons_append, List.nil_append,
    List.length_append, List.length_cons, List.length_nil] at hdrop hle ⊢
  rw [segmentsFrom, if_pos (by omega), hdrop]
  simp only [lead_of_isQuote hquote, htail]
  refine congrArg (segmentsFrom src hi start) ?_
  omega

/-- A template is stepped over, with whatever commas are in it. -/
theorem Steps.template {chunks holes : List Text} (hcount : chunks.length = holes.length + 1)
    (hchunks : ∀ c ∈ chunks, c.isChunk = true) (hholes : ∀ h ∈ holes, Passes h) :
    Steps (tick :: templateBody chunks holes ++ [tick]) := by
  intro src post hi start i hdrop hle
  have hend := closeTail_body hcount hchunks hholes [] post
  simp only [List.length_append, List.length_cons, List.length_nil] at hle ⊢
  rw [List.append_assoc, List.singleton_append, List.cons_append] at hdrop
  rw [segmentsFrom, if_pos (by omega), hdrop]
  simp only [show ∀ rest, lead tick rest = .template from fun _ => by simp +decide [lead], hend,
    leave, Option.map_some]
  refine congrArg (segmentsFrom src hi start) ?_
  omega

/-- A space in front is trimmed. -/
theorem trimStart_of_isSpace {b : Byte} (hb : b.isSpace = true) (rest : Text) :
    trimStart (b :: rest) = trimStart rest := by
  have hblank : isBlankByte b = true := by
    simp only [Byte.isSpace, Bool.or_eq_true, beq_iff_eq] at hb
    rcases hb with (((rfl | rfl) | rfl) | rfl) | rfl <;> decide
  rw [trimStart, leadingBlank_of_isBlankByte hblank]
  rfl

/-- White space of several bytes begins with one of four bytes. -/
theorem leadingBlank_cons_eq_zero {b : Byte} (hblank : isBlankByte b = false)
    (hb : b ∉ [0xC2, 0xE1, 0xE2, 0xE3]) (rest : Text) : leadingBlank (b :: rest) = 0 := by
  rcases rest with _ | ⟨c, _ | ⟨d, rest⟩⟩ <;>
    simp_all [leadingBlank, isBlankPair, isBlankTriple]

/-- What begins like an operand is not white space. -/
theorem isBlank_append_eq_false {blanks u : Text} (hblanks : ∀ b ∈ blanks, b.isSpace = true)
    (hu : u.head?.any opensOperand = true) : (blanks ++ u).isBlank = false := by
  induction blanks with
  | nil =>
    obtain ⟨b, rest, rfl⟩ : ∃ b rest, u = b :: rest := by
      cases u with
      | nil => exact absurd hu (by simp)
      | cons b rest => exact ⟨b, rest, rfl⟩
    have hall : ∀ b : Byte, opensOperand b = true →
        isBlankByte b = false ∧ b ∉ [0xC2, 0xE1, 0xE2, 0xE3] :=
      forall_byte (by decide +kernel)
    obtain ⟨hblank, hb⟩ := hall b (by simpa using hu)
    have hlead := leadingBlank_cons_eq_zero hblank hb rest
    rw [List.nil_append, isBlank, trimStart, if_pos hlead]
    rfl
  | cons b rest ih =>
    have hrest := ih fun c hc => hblanks c (List.mem_cons_of_mem _ hc)
    rwa [List.cons_append, isBlank, trimStart_of_isSpace (hblanks b List.mem_cons_self)]

/-- A range is what stands in it. -/
theorem slice_of_drop_eq {src u post : Text} {lo hi : Nat} (h : src.drop lo = u ++ post)
    (hhi : hi = lo + u.length) : src.slice lo hi = u := by
  rw [Text.slice, h, hhi, Nat.add_sub_cancel_left, List.take_left]

/-- A list that is written with commas comes apart into its members. -/
theorem segmentsFrom_join {u : Text} {us : List Text} (hsteps : ∀ v ∈ u :: us, Steps v)
    (hopens : ∀ v ∈ u :: us, v.head?.any opensOperand = true) {src blanks post : Text}
    {start : Nat} (hsrc : src.drop start = blanks ++ (join [comma, space] (u :: us) ++ post))
    (hblanks : ∀ b ∈ blanks, b.isSpace = true) (hpost : ∀ b ∈ post.head?, b.isIdentChar = false)
    {hi : Nat} (hhi : hi = start + blanks.length + (join [comma, space] (u :: us)).length) :
    ∃ ranges, segmentsFrom src hi start (start + blanks.length) = some ranges ∧
      List.Forall₂ (Shows src) ranges (u :: us) := by
  have hu := hsteps u List.mem_cons_self
  induction us generalizing u start blanks with
  | nil =>
    rw [join, List.intercalate_singleton] at hsrc hhi
    have hblank := isBlank_append_eq_false hblanks (hopens u List.mem_cons_self)
    have hshown := hsrc
    rw [← List.append_assoc] at hshown
    have hslice : src.slice start hi = blanks ++ u :=
      slice_of_drop_eq hshown (by rw [hhi, List.length_append, Nat.add_assoc])
    refine ⟨[⟨start, hi⟩], ?_, .cons ⟨blanks, post, hshown, hhi, hblanks, hpost⟩ .nil⟩
    rw [hu src post hi start _ (drop_add_of_eq hsrc) (Nat.le_of_eq hhi.symm), ← hhi, segmentsFrom,
      if_neg (Nat.lt_irrefl hi), hslice, hblank]
    rfl
  | cons v vs ih =>
    rw [join, List.intercalate_cons_cons, List.append_assoc, List.append_assoc] at hsrc
    rw [join, List.intercalate_cons_cons, List.length_append, List.length_append] at hhi
    have hbehind := drop_add_of_eq hsrc
    have hcomma := drop_add_of_eq hbehind
    have hspace := drop_add_of_eq (u := [comma]) hcomma
    have hblank : ∀ b ∈ [space], b.isSpace = true := List.all_eq_true.mp (by decide)
    obtain ⟨ranges, hranges, hshown⟩ := ih (fun w hw => hsteps w (List.mem_cons_of_mem _ hw))
      (fun w hw => hopens w (List.mem_cons_of_mem _ hw)) hspace hblank
      (by rw [hhi]; simp [join]; omega) (hsteps v (List.mem_cons_of_mem _ List.mem_cons_self))
    refine ⟨⟨start, start + blanks.length + u.length⟩ :: ranges, ?_,
      .cons ⟨blanks, _, by rw [hsrc, List.append_assoc], rfl, hblanks, by simp +decide⟩ hshown⟩
    have hskip : Steps [space] := .inert rfl (by decide)
    rw [hu src _ hi start _ hbehind (by omega), segmentsFrom, if_pos (by simp at hhi; omega),
      hcomma,
      List.cons_append]
    simp only [show ∀ rest, lead comma rest = .plain from fun _ => by simp +decide [lead], if_true]
    have hnext := hskip src _ hi (start + blanks.length + u.length + 1) _ hspace
      (by simp at hhi ⊢; omega)
    exact congrArg (Option.map _) (hnext.trans hranges)

/-- The members of a list that is written with commas, each with its range. -/
theorem segments_join {us : List Text} (hsteps : ∀ v ∈ us, Steps v)
    (hopens : ∀ v ∈ us, v.head?.any opensOperand = true) {src post : Text} {lo : Nat}
    (hsrc : src.drop lo = join [comma, space] us ++ post)
    (hpost : ∀ b ∈ post.head?, b.isIdentChar = false) :
    ∃ ranges, segments src lo (lo + (join [comma, space] us).length) = some ranges ∧
      List.Forall₂ (Shows src) ranges us := by
  cases us with
  | nil =>
    refine ⟨[], ?_, .nil⟩
    rw [segments, segmentsFrom, if_neg (by simp [join]),
      show (join [comma, space] []) = [] from rfl,
      List.length_nil, Nat.add_zero, slice_self, isBlank, trimStart]
    rfl
  | cons u us =>
    have hblank : ∀ b ∈ ([] : Text), b.isSpace = true := by simp
    exact segmentsFrom_join hsteps hopens hsrc hblank hpost rfl

end Scan

end JsxStyle
