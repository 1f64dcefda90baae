import JsxStyle.Proofs.Passing
import JsxStyle.Proofs.Printing
import JsxStyle.Proofs.Shape
import JsxStyle.Style.Generator

/-!
# Reading what was written

An expression of the forms that are understood is written so that reading gives
it back.  The brackets, quotes and backticks that are written around the parts of
an expression are found again by the scanners, because what is written for a part
is passed over; so every part is read from a range that shows just that part.
What is read of the parts is, by induction, the parts.

* `expression_text`: the reader of expressions on a range that shows an expression;
* `snippet_text`: the same for a text that is nothing else;
* `graftSnippet_graft`: printing an expression in a store and reading it again.
-/

namespace JsxStyle

open Ascii Scan

namespace Ast

/-- An expression of the forms that are understood, which was not read anywhere. -/
inductive Understood : Ast → Prop
  | ident {name : Text} (hname : name.isIdentifier = true) : Understood (made (.ident name))
  | str {value : Text} {quote : Char} (hline : newline ∉ value)
      (hquote : quote = '"' ∨ quote = '\'') : Understood (made (.str value quote))
  | array {elements : List Ast} (helements : ∀ e ∈ elements, Understood e) :
      Understood (made (.array elements))
  | member {object : Ast} {property : Text} (hobject : Understood object)
      (hproperty : property.isIdentifier = true) : Understood (made (.member object property))
  | call {callee : Ast} {arguments : List Ast} (hcallee : Understood callee)
      (harguments : ∀ e ∈ arguments, Understood e) : Understood (made (.call callee arguments))
  | template {tag : Ast} {chunks : List Text} {holes : List Ast} (htag : Understood tag)
      (hcount : chunks.length = holes.length + 1) (hchunks : ∀ c ∈ chunks, c.isChunk = true)
      (hholes : ∀ e ∈ holes, Understood e) : Understood (made (.template tag chunks holes))

/-- What is written for an expression. -/
def text (a : Ast) : Text :=
  (a.written false).code

/-- Printed pieces are joined as their code is. -/
theorem code_joined (sep : Printed) (ps : List Printed) :
    (Printed.joined sep ps).code = Text.join sep.code (ps.map (·.code)) := by
  induction ps with
  | nil => rfl
  | cons p ps ih =>
    cases ps with
    | nil => simp [Printed.joined, Text.join]
    | cons q ps =>
      rw [Printed.joined, Printed.code_append, Printed.code_append, ih]
      simp [Text.join, List.intercalate_cons_cons]

/-- Chunks and printed holes make the body of a template. -/
theorem code_interleave (chunks : List Text) (holes : List Printed) :
    (interleave chunks holes).code = templateBody chunks (holes.map (·.code)) := by
  induction chunks generalizing holes with
  | nil => rfl
  | cons chunk chunks ih =>
    cases holes with
    | nil => simpa [interleave, templateBody, Printed.ofText] using ih []
    | cons hole holes => simp [interleave, templateBody, Printed.ofText, ih]

/-- An identifier is written as its name. -/
theorem text_ident (name : Text) : (made (.ident name)).text = name := rfl

/-- A string is written between its quotes, with escapes. -/
theorem text_str (value : Text) (quote : Char) :
    (made (.str value quote)).text = Text.quoted quote value := rfl

/-- The elements of an array are written between brackets, with commas between them. -/
theorem text_array (elements : List Ast) : (made (.array elements)).text =
    openBracket :: Text.join [comma, space] (elements.map text) ++ [closeBracket] := by
  rw [text, made, written_node]
  simp [Kind.map, Kind.form, Kind.render, Printed.ofText, code_joined, Function.comp_def]
  rfl

/-- A property is written behind a full stop. -/
theorem text_member (object : Ast) (property : Text) :
    (made (.member object property)).text = object.text ++ dot :: property := by
  rw [text, made, written_node]
  rfl

/-- The arguments of a call are written between parentheses, with commas between them. -/
theorem text_call (callee : Ast) (arguments : List Ast) : (made (.call callee arguments)).text =
    callee.text ++
      (openParen :: Text.join [comma, space] (arguments.map text) ++ [closeParen]) := by
  rw [text, made, written_node]
  simp [Kind.map, Kind.form, Kind.render, Printed.ofText, code_joined, Function.comp_def, text]
  rfl

/-- A template is written behind its tag, between backticks. -/
theorem text_template (tag : Ast) (chunks : List Text) (holes : List Ast) :
    (made (.template tag chunks holes)).text =
      tag.text ++ (tick :: templateBody chunks (holes.map text) ++ [tick]) := by
  rw [text, made, written_node]
  simp [Kind.map, Kind.form, Kind.render, Printed.ofText, code_interleave, Function.comp_def, text]
  rfl

/-- The two quotes are single bytes. -/
theorem ofChar_of_quote {quote : Char} (h : quote = '"' ∨ quote = '\'') :
    ∃ q, Text.ofChar quote = [q] ∧ q.isQuote = true ∧ Char.ofNat q.toNat = quote := by
  rcases h with rfl | rfl
  · exact ⟨Ascii.quote, by decide, by decide, by decide⟩
  · exact ⟨apostrophe, by decide, by decide, by decide⟩

namespace Understood

variable {a : Ast}

/-- What is written for an expression begins like an operand. -/
theorem opens (ha : a.Understood) : ∃ b rest, a.text = b :: rest ∧ opensOperand b = true := by
  induction ha with
  | ident hname =>
    obtain ⟨b, rest, rfl, hb, -⟩ := Text.exists_of_isIdentifier hname
    exact ⟨b, rest, rfl, by simp [opensOperand, hb]⟩
  | @str value quote _ hquote =>
    obtain ⟨q, hq, hisQuote, -⟩ := ofChar_of_quote hquote
    refine ⟨q, Text.escape quote value ++ [q], ?_, by simp [opensOperand, hisQuote]⟩
    rw [text_str, Text.quoted, hq, List.append_assoc, List.singleton_append]
  | array _ => exact ⟨openBracket, _, text_array _, rfl⟩
  | member _ _ ih =>
    obtain ⟨b, rest, htext, hb⟩ := ih
    exact ⟨b, _, by rw [text_member, htext, List.cons_append], hb⟩
  | call _ _ ih =>
    obtain ⟨b, rest, htext, hb⟩ := ih
    exact ⟨b, _, by rw [text_call, htext, List.cons_append], hb⟩
  | template _ _ _ _ ih =>
    obtain ⟨b, rest, htext, hb⟩ := ih
    exact ⟨b, _, by rw [text_template, htext, List.cons_append], hb⟩

/-- What is understood begins with a byte that an operand may begin with. -/
theorem head_opens (ha : a.Understood) : a.text.head?.any opensOperand = true := by
  obtain ⟨b, rest, htext, hb⟩ := ha.opens
  rw [htext]
  simpa using hb

/-- What is written for an expression does not end in white space. -/
theorem ends (ha : a.Understood) : ∃ b rest, a.text = rest ++ [b] ∧ b.isSpace = false := by
  have hclose {b : Byte} {u v : Text} (hb : b.isSpace = false) :
      ∃ c rest, u ++ (v ++ [b]) = rest ++ [c] ∧ c.isSpace = false :=
    ⟨b, u ++ v, (List.append_assoc ..).symm, hb⟩
  have hname {name : Text} (h : name.isIdentifier = true) (u : Text) :
      ∃ c rest, u ++ name = rest ++ [c] ∧ c.isSpace = false := by
    have hall : ∀ b : Byte, b.isIdentChar = true → b.isSpace = false :=
      forall_byte (by decide +kernel)
    have hchars := Text.isIdentChar_of_isIdentifier h
    obtain rfl | ⟨rest, c, rfl⟩ := List.eq_nil_or_concat name
    · exact absurd h (by simp [Text.isIdentifier])
    · rw [List.concat_eq_append] at hchars ⊢
      exact ⟨c, u ++ rest, (List.append_assoc ..).symm, hall c (hchars c (by simp))⟩
  cases ha with
  | ident hident => exact hname hident []
  | str _ hquote =>
    obtain ⟨q, hq, hisQuote, -⟩ := ofChar_of_quote hquote
    have hspace : q.isSpace = false := by
      have hall : ∀ b : Byte, b.isQuote = true → b.isSpace = false :=
        forall_byte (by decide +kernel)
      exact hall q hisQuote
    rw [text_str, Text.quoted, hq]
    exact ⟨q, _, rfl, hspace⟩
  | array _ => exact ⟨closeBracket, _, text_array _, rfl⟩
  | member hobject hproperty =>
    rw [text_member, List.append_cons]
    exact hname hproperty _
  | call hcallee _ =>
    rw [text_call]
    exact hclose rfl
  | template _ _ _ _ =>
    rw [text_template]
    exact hclose rfl

/-- A scanner for the end of a group passes over it. -/
theorem passes (ha : a.Understood) : Passes a.text := by
  have hname {name : Text} (h : name.isIdentifier = true) : Passes name :=
    .inerts fun b hb => (isInert_of_isIdentChar (Text.isIdentChar_of_isIdentifier h b hb)).1
  induction ha with
  | ident hident => exact hname hident
  | str hline hquote =>
    obtain ⟨q, hq, hisQuote, -⟩ := ofChar_of_quote hquote
    exact .quoted hq hisQuote hline
  | array _ ih =>
    rw [text_array]
    exact .group (.join (List.forall_mem_map.mpr ih)) rfl
  | member _ hproperty ih =>
    rw [text_member]
    exact ih.append (.append (.inert rfl) (hname hproperty))
  | call _ _ ih iharguments =>
    rw [text_call]
    exact ih.append (.group (.join (List.forall_mem_map.mpr iharguments)) rfl)
  | template _ hcount hchunks _ ih ihholes =>
    rw [text_template]
    exact ih.append (.template (by simpa using hcount) hchunks (List.forall_mem_map.mpr ihholes))

/-- A scanner for commas passes over it, too. -/
theorem steps (ha : a.Understood) : Steps a.text := by
  have hname {name : Text} (h : name.isIdentifier = true) : Steps name :=
    .inerts fun b hb => isInert_of_isIdentChar (Text.isIdentChar_of_isIdentifier h b hb)
  have hpasses {as : List Ast} (h : ∀ e ∈ as, e.Understood) : ∀ u ∈ as.map text, Passes u :=
    List.forall_mem_map.mpr fun e he => (h e he).passes
  induction ha with
  | ident hident => exact hname hident
  | str hline hquote =>
    obtain ⟨q, hq, hisQuote, -⟩ := ofChar_of_quote hquote
    exact .quoted hq hisQuote hline
  | array helements =>
    rw [text_array]
    exact .group (.join (hpasses helements)) rfl
  | member _ hproperty ih =>
    rw [text_member]
    exact ih.append (.append (.inert rfl (by decide)) (hname hproperty))
  | call _ harguments ih =>
    rw [text_call]
    exact ih.append (.group (.join (hpasses harguments)) rfl)
  | template _ hcount hchunks hholes ih =>
    rw [text_template]
    exact ih.append (.template (by simpa using hcount) hchunks (hpasses hholes))

end Understood

/-- The members of a list are shorter than the list. -/
theorem shorter_of_join {as : List Ast} (has : ∀ a ∈ as, a.Understood) {d : Nat}
    (hd : (Text.join [comma, space] (as.map text)).length < d) :
    ∀ a ∈ as, a.Understood ∧ a.text.length < d := by
  intro a ha
  have hmem : a.text ∈ as.map text := List.mem_map_of_mem ha
  exact ⟨has a ha, Nat.lt_of_le_of_lt (length_le_join hmem) hd⟩

end Ast

namespace Read

open Ast

variable {src : Text}

/-- A range shrinks to the text between the white space at its beginning and its end. -/
theorem shrink_eq {blanks u post : Text} {lo hi : Nat} (hdrop : src.drop lo = blanks ++ (u ++ post))
    (hhi : hi = lo + blanks.length + u.length) (hblanks : ∀ b ∈ blanks, b.isSpace = true)
    (hfirst : ∃ b rest, u = b :: rest ∧ b.isSpace = false)
    (hlast : ∃ c init, u = init ++ [c] ∧ c.isSpace = false) :
    shrink src lo hi = ⟨lo + blanks.length, hi⟩ := by
  obtain ⟨b, rest, hcons, hbspace⟩ := hfirst
  obtain ⟨c, init, hinit, hcspace⟩ := hlast
  have hslice : src.slice lo hi = blanks ++ u :=
    slice_of_drop_eq (by rw [hdrop, List.append_assoc])
      (by rw [hhi, List.length_append, Nat.add_assoc])
  have hstart : skipSpace src lo hi = lo + blanks.length := by
    rw [skipSpace, hslice, List.takeWhile_append_of_pos hblanks, hcons, List.takeWhile_cons,
      hbspace]
    simp
  have htext : src.slice (lo + blanks.length) hi = u :=
    slice_of_drop_eq (drop_add_of_eq hdrop) hhi
  have hreverse : (u.reverse.dropWhile Byte.isSpace).length = u.length := by
    rw [hinit, List.reverse_append, List.reverse_singleton, List.singleton_append,
      List.dropWhile_cons, hcspace]
    simp
  rw [shrink, hstart, htext, hreverse, hhi]

/-- What is left of a range that shows an expression without the white space around it. -/
theorem shrink_shows {a : Ast} (ha : a.Understood) {s : Span} (hs : Shows src s a.text) :
    ∃ lo post, shrink src s.lo s.hi = ⟨lo, lo + a.text.length⟩ ∧ src.drop lo = a.text ++ post ∧
      ∀ b ∈ post.head?, b.isIdentChar = false := by
  obtain ⟨blanks, post, hdrop, hhi, hblanks, hpost⟩ := hs
  obtain ⟨b, rest, hopens, hb⟩ := ha.opens
  have hall : ∀ b : Byte, opensOperand b = true → b.isSpace = false :=
    forall_byte (by decide +kernel)
  rw [List.append_assoc] at hdrop
  have hshrink := shrink_eq hdrop hhi hblanks ⟨b, rest, hopens, hall b hb⟩ ha.ends
  exact ⟨s.lo + blanks.length, post, by rw [hshrink, hhi], drop_add_of_eq hdrop, hpost⟩

/-- The readers read every expression that is shorter than `d`. -/
def Rereads (r : Readers) (src : Text) (d : Nat) : Prop :=
  ∀ (a : Ast) (s : Span), a.Understood → a.text.length < d → Shows src s a.text →
    ∃ b, r.expression s.lo s.hi = .ok b ∧ b.unplaced = a

variable {r : Readers} {d : Nat}

/-- Readers that read each text back read a list of texts back. -/
theorem Rereads.expressions (hr : Rereads r src d) {as : List Ast}
    (has : ∀ a ∈ as, a.Understood ∧ a.text.length < d) {ranges : List Span}
    (hshows : List.Forall₂ (Shows src) ranges (as.map text)) :
    ∃ bs, r.expressions ranges = .ok bs ∧ bs.map unplaced = as := by
  induction as generalizing ranges with
  | nil =>
    obtain rfl := List.forall₂_nil_right_iff.mp hshows
    exact ⟨[], rfl, rfl⟩
  | cons a as ih =>
    rw [List.map_cons, List.forall₂_cons_right_iff] at hshows
    obtain ⟨s, rest, hs, hrest, rfl⟩ := hshows
    obtain ⟨ha, hlt⟩ := has a List.mem_cons_self
    obtain ⟨b, hb, rfl⟩ := hr a s ha hlt hs
    obtain ⟨bs, hbs, rfl⟩ := ih (fun c hc => has c (List.mem_cons_of_mem _ hc)) hrest
    refine ⟨b :: bs, ?_, rfl⟩
    rw [Readers.expressions, List.mapM_cons, hb]
    exact bind_eq_ok.mpr ⟨b, rfl, bind_eq_ok.mpr ⟨bs, hbs, rfl⟩⟩

variable {lo hi : Nat} {base : Ast}

/-- Nothing is chained to an operand that fills its range. -/
theorem chain_end {pos : Nat} (h : lo < pos) (hle : hi ≤ pos) :
    chain r src lo hi base pos h = .ok (some ⟨base, pos, h⟩) := by
  rw [chain, if_neg (Nat.not_lt.mpr hle)]
  rfl

/-- A property that is chained to an operand is read as one. -/
theorem chain_member {pos : Nat} (h : lo < pos) {property post : Text}
    (hproperty : property.isIdentifier = true) (hsrc : src.drop pos = dot :: property ++ post)
    (hpost : ∀ b ∈ post.head?, b.isIdentChar = false) (hle : pos + 1 + property.length ≤ hi) :
    chain r src lo hi base pos h =
      chain r src lo hi (placed lo (pos + 1 + property.length) (.member base property))
        (pos + 1 + property.length) (Nat.lt_add_right _ (Nat.lt_succ_of_lt h)) := by
  obtain ⟨b, rest, hname, hb, -⟩ := Text.exists_of_isIdentifier hproperty
  have hlength : 0 < property.length := by rw [hname]; exact Nat.succ_pos _
  have hhead : (property ++ post).head?.any Byte.isIdentStart = true := by
    rw [hname]
    simpa using hb
  rw [List.cons_append] at hsrc
  rw [chain, if_pos (by omega), hsrc]
  simp only [hhead, show pos + 1 < hi by omega, and_self, if_true,
    identLength_append hproperty hpost, List.take_left]

/-- The members of a list in brackets are read from the ranges between the commas. -/
theorem Rereads.list (hr : Rereads r src d) {as : List Ast}
    (has : ∀ a ∈ as, a.Understood ∧ a.text.length < d) {b close : Byte}
    (hb : b.closer? = some close) {pos : Nat} {post : Text}
    (hsrc : src.drop pos = b :: (Text.join [comma, space] (as.map text) ++ close :: post)) :
    ∃ n ranges bs, n = (Text.join [comma, space] (as.map text)).length + 1 ∧
      closeTail (.group close) [] (Text.join [comma, space] (as.map text) ++ close :: post) =
        some n ∧
      segments src (pos + 1) (pos + n) = some ranges ∧
      r.expressions ranges = .ok bs ∧ bs.map unplaced = as := by
  have hclose : close.isIdentChar = false := by
    unfold Byte.closer? at hb
    grind [show closeParen.isIdentChar = false from rfl,
      show closeBracket.isIdentChar = false from rfl, show closeBrace.isIdentChar = false from rfl]
  have hinside := drop_add_of_eq (u := [b]) hsrc
  obtain ⟨ranges, hranges, hshows⟩ := segments_join
    (List.forall_mem_map.mpr fun a ha => (has a ha).1.steps)
    (List.forall_mem_map.mpr fun a ha => (has a ha).1.head_opens) hinside (by simpa using hclose)
  obtain ⟨bs, hbs, hunplaced⟩ := hr.expressions has hshows
  have hpasses : Passes (Text.join [comma, space] (as.map text)) :=
    .join (List.forall_mem_map.mpr fun a ha => (has a ha).1.passes)
  refine ⟨_, ranges, bs, rfl, hpasses.matching_eq hb post, ?_, hbs, hunplaced⟩
  rw [← hranges]
  congr 1
  simp
  omega

/-- A call is read from its brackets. -/
theorem chain_call (hr : Rereads r src d) {pos : Nat} (h : lo < pos) {arguments : List Ast}
    (harguments : ∀ a ∈ arguments, a.Understood ∧ a.text.length < d) {post : Text}
    (hsrc : src.drop pos =
      openParen :: (Text.join [comma, space] (arguments.map text) ++ closeParen :: post))
    (hle : pos + (Text.join [comma, space] (arguments.map text)).length + 2 ≤ hi) :
    ∃ bs stop, bs.map unplaced = arguments ∧
      stop = pos + (Text.join [comma, space] (arguments.map text)).length + 2 ∧
      ∃ h', chain r src lo hi base pos h =
        chain r src lo hi (placed lo stop (.call base bs)) stop h' := by
  obtain ⟨n, ranges, bs, hn, hend, hranges, hbs, hunplaced⟩ := hr.list harguments rfl hsrc
  refine ⟨bs, pos + n + 1, hunplaced, by omega, by omega, ?_⟩
  rw [chain, if_pos (by omega), hsrc]
  simp only [show ¬ (openParen = dot ∧ _) from fun h => absurd h.1 (by decide), if_false, if_true,
    hend, show pos + n < hi by omega, hranges, hbs]
  rfl

/-- A template is read if its parts are, and its holes. -/
theorem taggedTemplate_eq (tag : Ast) (lo : Nat) {tick : Nat} {parts : TemplateParts}
    {bs : List Ast}
    (hparts : templateParts src tick = some parts) (hbs : r.expressions parts.holes = .ok bs) :
    ∃ h, taggedTemplate r src tag lo tick =
      .ok ⟨placed lo parts.stop (.template tag parts.chunks bs), parts.stop, h⟩ := by
  refine ⟨Nat.lt_of_succ_lt (templateTail_bounds hparts).1, ?_⟩
  rw [taggedTemplate_some _ _ _ hparts, hbs]
  rfl

/-- A template is read from its chunks and holes. -/
theorem chain_template (hr : Rereads r src d) {pos : Nat} (h : lo < pos) {chunks : List Text}
    {holes : List Ast} (hcount : chunks.length = holes.length + 1)
    (hchunks : ∀ c ∈ chunks, c.isChunk = true)
    (hholes : ∀ a ∈ holes, a.Understood ∧ a.text.length < d) {post : Text}
    (hsrc : src.drop pos = tick :: (templateBody chunks (holes.map text) ++ tick :: post))
    (hle : pos + (templateBody chunks (holes.map text)).length + 2 ≤ hi) :
    ∃ bs stop, bs.map unplaced = holes ∧
      stop = pos + (templateBody chunks (holes.map text)).length + 2 ∧
      ∃ h', chain r src lo hi base pos h =
        chain r src lo hi (placed lo stop (.template base chunks bs)) stop h' := by
  have hinside := drop_add_of_eq (u := [tick]) hsrc
  obtain ⟨ranges, hbody, hshows⟩ := templateTail_body (by simpa using hcount) hchunks
    (List.forall_mem_map.mpr fun a ha => (hholes a ha).1.passes) hinside
  obtain ⟨bs, hbs, hunplaced⟩ := hr.expressions hholes hshows
  obtain ⟨stop, hstop, hparts⟩ : ∃ stop,
      stop = pos + (templateBody chunks (holes.map text)).length + 2 ∧
        templateParts src pos = some ⟨chunks, ranges, stop⟩ := by
    refine ⟨_, ?_, (congrArg (templateTail (pos + 1)) hinside).trans hbody⟩
    simp only [List.length_singleton]
    omega
  obtain ⟨hadv, htagged⟩ := taggedTemplate_eq base lo hparts hbs
  refine ⟨bs, stop, hunplaced, hstop, Nat.lt_trans h hadv, ?_⟩
  rw [chain, if_pos (by omega), hsrc]
  simp only [show ¬ (tick = dot ∧ _) from fun h => absurd h.1 (by decide), if_false, if_true,
    show tick ≠ openParen by decide, templateEnd, hparts, Option.map_some,
    show stop ≤ hi by omega]
  rw [htagged]
  rfl

/-- What is read from `lo` on is `a`, and then what is chained to it. -/
def Leads (r : Readers) (src : Text) (lo hi : Nat) (a : Ast) : Prop :=
  ∃ b stop, b.unplaced = a ∧ stop = lo + a.text.length ∧ ∃ h,
    operand r src lo hi = chain r src lo hi b stop h

/-- A name is read as an identifier. -/
theorem leads_ident {name post : Text} (hname : name.isIdentifier = true)
    (hsrc : src.drop lo = name ++ post) (hpost : ∀ b ∈ post.head?, b.isIdentChar = false) :
    Leads r src lo hi (made (.ident name)) := by
  obtain ⟨b, rest, rfl, hb, hrest⟩ := Text.exists_of_isIdentifier hname
  have hall : ∀ b : Byte, b.isIdentStart = true →
      b.isQuote = false ∧ b ≠ openBracket ∧ b ≠ less := forall_byte (by decide +kernel)
  obtain ⟨hquote, hbracket, hless⟩ := hall b hb
  rw [List.cons_append] at hsrc
  rw [Leads, operand, hsrc, text_ident]
  simp only [hquote, Bool.false_eq_true, if_false, if_neg hbracket, if_neg hless, hb, if_true,
    takeWhile_append_stop hrest hpost]
  exact ⟨_, _, unplaced_node .., by rw [List.length_cons]; omega, by omega, rfl⟩

/-- A string literal is read as the string it was written for. -/
theorem leads_str {value post : Text} {quote : Char} (hline : newline ∉ value)
    (hquote : quote = '"' ∨ quote = '\'')
    (hsrc : src.drop lo = (made (.str value quote)).text ++ post)
    (hle : lo + (made (.str value quote)).text.length ≤ hi) :
    Leads r src lo hi (made (.str value quote)) := by
  obtain ⟨q, hq, hisQuote, hchar⟩ := ofChar_of_quote hquote
  have htail := stringTail_escape hq hisQuote hline post
  have hvalue := Text.unescape_escape hq hisQuote value
  have hlength : (made (.str value quote)).text.length = (Text.escape quote value).length + 2 := by
    simp [text_str, Text.quoted, hq]
  have hquoted : src.drop lo = q :: (Text.escape quote value ++ q :: post) := by
    rw [hsrc, text_str, Text.quoted, hq]
    simp
  rw [Leads, operand, hquoted]
  simp only [hisQuote, if_true, htail, Nat.add_sub_cancel, List.take_left, hvalue, hchar,
    show lo + 1 + ((Text.escape quote value).length + 1) ≤ hi by omega]
  exact ⟨_, _, unplaced_node .., by omega, by omega, rfl⟩

/-- An array is read if its elements are. -/
theorem leads_array (hr : Rereads r src d) {elements : List Ast} {post : Text}
    (helements : ∀ e ∈ elements, e.Understood ∧ e.text.length < d)
    (hsrc : src.drop lo = (made (.array elements)).text ++ post)
    (hle : lo + (made (.array elements)).text.length ≤ hi) :
    Leads r src lo hi (made (.array elements)) := by
  have hlength : (made (.array elements)).text.length =
      (Text.join [comma, space] (elements.map text)).length + 2 := by
    simp [text_array]
  rw [text_array, List.append_assoc, List.cons_append, List.singleton_append] at hsrc
  obtain ⟨n, ranges, bs, hn, hend, hranges, hbs, hunplaced⟩ := hr.list helements rfl hsrc
  rw [Leads, operand, hsrc]
  simp only [show openBracket.isQuote = false from rfl, Bool.false_eq_true, if_false, if_true,
    hend, show lo + n < hi by omega, hranges, hbs]
  refine ⟨_, _, ?_, by omega, by omega, rfl⟩
  rw [placed, unplaced_node, Kind.map, hunplaced]
  rfl

/-- An operand and what is chained to it are read from their front. -/
theorem operand_text (hr : Rereads r src d) {a : Ast} (ha : a.Understood) (hd : a.text.length ≤ d)
    {post : Text} (hsrc : src.drop lo = a.text ++ post)
    (hpost : ∀ b ∈ post.head?, b.isIdentChar = false) (hle : lo + a.text.length ≤ hi) :
    Leads r src lo hi a := by
  induction ha generalizing post with
  | ident hname =>
    rw [text_ident] at hsrc
    exact leads_ident hname hsrc hpost
  | str hline hquote => exact leads_str hline hquote hsrc hle
  | @array elements helements =>
    have hlength : (made (.array elements)).text.length =
        (Text.join [comma, space] (elements.map text)).length + 2 := by
      simp [text_array]
    exact leads_array hr (shorter_of_join helements (by omega)) hsrc hle
  | @member object property hobject hproperty ih =>
    have hlength : (made (.member object property)).text.length =
        object.text.length + 1 + property.length := by
      simp [text_member]
      omega
    rw [text_member, List.append_assoc] at hsrc
    obtain ⟨b, _, hb, rfl, h, hobject⟩ := ih (by omega) hsrc (by simp +decide) (by omega)
    rw [Leads, hobject, chain_member h hproperty (drop_add_of_eq hsrc) hpost (by omega)]
    refine ⟨_, _, ?_, by omega, by omega, rfl⟩
    rw [placed, unplaced_node, Kind.map, hb]
    rfl
  | @call callee arguments hcallee harguments ih =>
    have hlength : (made (.call callee arguments)).text.length =
        callee.text.length + (Text.join [comma, space] (arguments.map text)).length + 2 := by
      simp [text_call]
      omega
    have hshorter := shorter_of_join harguments (d := d) (by omega)
    have hwithin : lo + callee.text.length +
        (Text.join [comma, space] (arguments.map text)).length + 2 ≤ hi := by omega
    rw [text_call, List.append_assoc] at hsrc
    obtain ⟨b, _, hb, rfl, h, hcallee⟩ := ih (by omega) hsrc (by simp +decide) (by omega)
    have hbehind := drop_add_of_eq hsrc
    rw [List.append_assoc, List.cons_append, List.singleton_append] at hbehind
    obtain ⟨bs, stop, hunplaced, hstop, h', hchain⟩ := chain_call hr h hshorter hbehind hwithin
    rw [Leads, hcallee, hchain]
    refine ⟨_, _, ?_, by omega, h', rfl⟩
    rw [placed, unplaced_node, Kind.map, hb, hunplaced]
    rfl
  | @template tag chunks holes htag hcount hchunks hholes ih =>
    have hlength : (made (.template tag chunks holes)).text.length =
        tag.text.length + (templateBody chunks (holes.map text)).length + 2 := by
      simp [text_template]
      omega
    have hshorter : ∀ e ∈ holes, e.Understood ∧ e.text.length < d := fun e he => by
      have hmem : e.text ∈ holes.map text := List.mem_map_of_mem he
      have hshort := length_le_templateBody (by simpa using hcount) hmem
      exact ⟨hholes e he, by omega⟩
    have hwithin : lo + tag.text.length +
        (templateBody chunks (holes.map text)).length + 2 ≤ hi := by omega
    rw [text_template, List.append_assoc] at hsrc
    obtain ⟨b, _, hb, rfl, h, htag⟩ := ih (by omega) hsrc (by simp +decide) (by omega)
    have hbehind := drop_add_of_eq hsrc
    rw [List.append_assoc, List.cons_append, List.singleton_append] at hbehind
    obtain ⟨bs, stop, hunplaced, hstop, h', hchain⟩ :=
      chain_template hr h hcount hchunks hshorter hbehind hwithin
    rw [Leads, htag, hchain]
    refine ⟨_, _, ?_, by omega, h', rfl⟩
    rw [placed, unplaced_node, Kind.map, hb, hunplaced]
    rfl

/-- The reader of expressions reads what was written for one that is not too long for it. -/
theorem expression_text (src : Text) (depth : Nat) : Rereads (readers src depth) src depth := by
  induction depth with
  | zero => exact fun a s _ hlt _ => absurd hlt (Nat.not_lt_zero _)
  | succ depth ih =>
    intro a s ha hlt hs
    obtain ⟨lo, post, hshrink, hsrc, hpost⟩ := shrink_shows ha hs
    have hr :
        Rereads ⟨(readers src depth).expression, element (readers src depth) src⟩ src depth := ih
    obtain ⟨b, stop, hb, rfl, h, hoperand⟩ :=
      operand_text hr ha (Nat.le_of_lt_succ hlt) hsrc hpost (Nat.le_refl _)
    refine ⟨b, ?_, hb⟩
    have hend : skipSpace src (lo + a.text.length) (lo + a.text.length) = lo + a.text.length := by
      rw [skipSpace, Text.slice_self]
      rfl
    show Read.expression ⟨(readers src depth).expression, element (readers src depth) src⟩ src
      s.lo s.hi = .ok b
    rw [Read.expression, hshrink]
    simp only [Nat.ne_of_lt h, if_false, hoperand, chain_end h (Nat.le_refl _)]
    exact bind_eq_ok.mpr ⟨_, rfl, if_pos hend⟩

/-- What is understood is read back from its own text. -/
theorem snippet_text {a : Ast} (ha : a.Understood) : snippet a.text = .ok a := by
  have hshows : Shows a.text ⟨0, a.text.length⟩ a.text :=
    ⟨[], [], by simp, by simp, by simp, by simp⟩
  obtain ⟨b, hb, hunplaced⟩ :=
    expression_text a.text (a.text.length + 1) a _ ha (Nat.lt_succ_self _) hshows
  exact map_eq_ok.mpr ⟨b, hb, hunplaced⟩

end Read

namespace Text

/-- No white space is in front of what is trimmed. -/
theorem leadingBlank_trimStart (t : Text) : leadingBlank (trimStart t) = 0 := by
  induction t using blank_induction with
  | visible t h => rwa [trimStart_of_visible h]
  | blank t h ih => rwa [trimStart_of_blank h]

/-- A line feed is white space. -/
theorem ne_newline_of_leadingBlank {b : Byte} {rest : Text} (h : leadingBlank (b :: rest) = 0) :
    newline ≠ b := by
  rintro rfl
  rw [leadingBlank_of_isBlankByte (by decide)] at h
  exact absurd h (by decide)

/-- A word ends before a line feed. -/
theorem newline_not_mem_untilBlank (t : Text) : newline ∉ (untilBlank t).1 := by
  induction t with
  | nil => simp [untilBlank]
  | cons b rest ih =>
    rw [untilBlank]
    split
    case isTrue h => exact List.not_mem_cons_of_ne_of_not_mem (ne_newline_of_leadingBlank h) ih
    case isFalse => exact List.not_mem_nil

/-- So there is no line feed in a word. -/
theorem newline_not_mem_words (t : Text) : ∀ w ∈ words t, newline ∉ w := by
  rw [words]
  split
  case h_1 => simp
  case h_2 b rest h =>
    have hlead := leadingBlank_trimStart t
    rw [h] at hlead
    have hshorter : (untilBlank rest).2.length < t.length := by
      have htrim := length_trimStart_le t
      have hrest := length_untilBlank_snd_le rest
      rw [h, List.length_cons] at htrim
      omega
    refine List.forall_mem_cons.mpr ⟨?_, newline_not_mem_words (untilBlank rest).2⟩
    exact List.not_mem_cons_of_ne_of_not_mem (ne_newline_of_leadingBlank hlead)
      (newline_not_mem_untilBlank rest)
termination_by t.length

/-- Collapsed white space holds no line feed. -/
theorem newline_not_mem_collapse (t : Text) : newline ∉ t.collapse := by
  intro h
  obtain hsep | ⟨w, hw, hmem⟩ := mem_join h
  · exact absurd hsep (by decide)
  · exact newline_not_mem_words t w hw hmem

end Text

namespace Ast.Understood

/-- What is understood has no places. -/
theorem placeless {a : Ast} (ha : a.Understood) : a.Every fun b => b.span = none := by
  induction ha with
  | ident | str => exact every_node.mpr ⟨rfl, by simp [Kind.children]⟩
  | array _ ih => exact every_node.mpr ⟨rfl, ih⟩
  | member _ _ ih => exact every_node.mpr ⟨rfl, by simpa [Kind.children] using ih⟩
  | call _ _ ih iharguments =>
    exact every_node.mpr ⟨rfl, List.forall_mem_cons.mpr ⟨ih, iharguments⟩⟩
  | template _ _ _ _ ih ihholes =>
    exact every_node.mpr ⟨rfl, List.forall_mem_cons.mpr ⟨ih, ihholes⟩⟩

/-- The call that is left for when the program runs is of a form that is understood. -/
theorem runtimeCall {callee : Text} (hcallee : callee.isIdentifier = true) (classes : Text) :
    (made (.call (made (.ident callee)) [made (.str classes.collapse '"')])).Understood :=
  .call (.ident hcallee) (List.forall_mem_singleton.mpr
    (.str (Text.newline_not_mem_collapse classes) (Or.inl rfl)))

end Ast.Understood

namespace Tree

open Ast

variable {t u : Tree}

/-- A tree that was put into a store is depicted by its top node. -/
theorem depicts_graft (ht : t.Linked) (a : Ast) :
    ((graft a).run t).2.Depicts ((graft a).run t).1 a := by
  cases (graft_spec a t ht).depicts with
  | cons h _ => exact h

/-- It is in no attribute yet. -/
theorem inAttribute_graft (ht : t.Linked) (a : Ast) :
    ((graft a).run t).2.inAttribute ((graft a).run t).1 = false := by
  rw [inAttribute, (graft_spec a t ht).free _ List.mem_cons_self]
  rfl

/-- A text that was printed for an expression gives an expression of the same tree. -/
theorem graftSnippet_printNode (ht : t.Linked) (hu : u.Linked) {a : Ast} {n : NodeId}
    (ha : a.Understood) (hn : t.Depicts n a) (hfree : t.inAttribute n = false) :
    ∃ m u', u.graftSnippet (t.printNode n).code = .ok (m, u') ∧ u'.Depicts m a := by
  have hprinted : (t.printNode n).code = a.text := by
    rw [printNode_of_depicts ht hn ha.placeless, hfree]
    rfl
  refine ⟨_, _, ?_, depicts_graft hu a⟩
  rw [hprinted, graftSnippet, Read.snippet_text ha]
  rfl

/-- A tree that was put into a store and printed can be put into another one from its print. -/
theorem graftSnippet_graft (ht : t.Linked) (hu : u.Linked) {a : Ast} (ha : a.Understood) :
    ∃ n t', (graft a).run t = (n, t') ∧
      ∃ m u', u.graftSnippet (t'.printNode n).code = .ok (m, u') ∧ u'.Depicts m a :=
  ⟨_, _, rfl, graftSnippet_printNode (graft_spec a t ht).linked hu ha (depicts_graft ht a)
    (inAttribute_graft ht a)⟩

/-- **Lossless printing.**  An expression of the forms that are understood, wherever
it is stored, is printed as a text that is read as the same expression; and so the
call that a class string is turned into is read as a call on the collapsed string. -/
theorem expressions_read_back (ht : t.Linked) (hu : u.Linked) :
    (∀ (a : Ast) (n : NodeId), a.Understood → t.Depicts n a → t.inAttribute n = false →
      ∃ m u', u.graftSnippet (t.printNode n).code = .ok (m, u') ∧ u'.Depicts m a ∧
        a.Every fun b => b.span = none) ∧
    ∀ callee classes : Text, callee.isIdentifier = true →
      ∃ a n t', Generator.runtimeCall callee classes = .ok a ∧ (graft a).run t = (n, t') ∧
        a.Understood ∧
        ∃ m u', u.graftSnippet (t'.printNode n).code = .ok (m, u') ∧
          u'.Depicts m
            (made (.call (made (.ident callee)) [made (.str classes.collapse '"')])) := by
  constructor
  · intro a n ha hn hfree
    obtain ⟨m, u', hsnippet, hdepicts⟩ := graftSnippet_printNode ht hu ha hn hfree
    exact ⟨m, u', hsnippet, hdepicts, ha.placeless⟩
  · intro callee classes hcallee
    have ha := Understood.runtimeCall hcallee classes
    obtain ⟨n, t', hgraft, hread⟩ := graftSnippet_graft ht hu ha
    exact ⟨_, n, t', rfl, hgraft, ha, hread⟩

/-- A call on a member, with a quote, a backslash, a comma and a hole among its arguments. -/
theorem nested_call_read_back :
    ∃ (a : Ast) (n m : NodeId) (t u : Tree), (graft a).run (new []) = (n, t) ∧
      (t.printNode n).code = Text.ofString "x.y(['it\\'s, \\\\'], t`a$$\x7bz\x7db`)" ∧
      (new []).graftSnippet (t.printNode n).code = .ok (m, u) ∧ u.Depicts m a := by
  let word := fun s => made (.ident (Text.ofString s))
  let a := made (.call (made (.member (word "x") (Text.ofString "y")))
    [made (.array [made (.str (Text.ofString "it's, \\") '\'')]),
      made (.template (word "t") [Text.ofString "a$", Text.ofString "b"] [word "z"])])
  have hword : ∀ {s}, (Text.ofString s).isIdentifier = true → (word s).Understood := .ident
  have ha : a.Understood := by
    refine .call (.member (hword (by decide +kernel)) (by decide +kernel)) ?_
    simp only [List.forall_mem_cons, List.not_mem_nil, false_implies, implies_true, and_true]
    refine ⟨.array ?_, .template (hword (by decide +kernel)) rfl (by decide +kernel) ?_⟩
    · exact List.forall_mem_singleton.mpr (.str (by decide +kernel) (Or.inr rfl))
    · exact List.forall_mem_singleton.mpr (hword (by decide +kernel))
  have hempty := linked_new []
  obtain ⟨m, u, hread, hdepicts, -⟩ :=
    (expressions_read_back (graft_spec a _ hempty).linked hempty).1 a _ ha (depicts_graft hempty a)
      (inAttribute_graft hempty a)
  exact ⟨a, _, m, _, u, rfl, by decide +kernel, hread, hdepicts⟩

end Tree

end JsxStyle
