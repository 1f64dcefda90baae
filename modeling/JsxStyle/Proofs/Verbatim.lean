import JsxStyle.Proofs.Balanced
import JsxStyle.Proofs.Comments
import JsxStyle.Proofs.Shape
import Mathlib.Data.List.TakeWhile

/-!
# What is read is what the source has there

Most nodes are made of what was read below them.  Three are made of the source
alone: opaque code, import statements, and templates, whose chunks are kept as they
are written.  So a property of nodes holds of everything that is read if it holds of
those three as their readers make them, and of every node of another form.

The holes of a template show what they were read from.  A string in a hole stands
there as a literal with white space around it at most, and opaque code that is all
there is in a hole is the text of the hole without the white space around it.

* `Read.every_program`, `Tree.holds_of_read`: a property of nodes, from the readers of
  these three;
* `ReadFrom`: what a text shows of the expression that was read from it;
* `Ast.Verbatim`, `Read.verbatim_program`: the text of opaque code.
-/

namespace JsxStyle

open Ascii Scan

/-- A string literal that is read as `value`. -/
def IsLiteralOf (value literal : Text) : Prop :=
  ∃ q raw, literal = q :: (raw ++ [q]) ∧ q.isQuote = true ∧ StringBody q raw ∧
    value = Text.unescape raw

/-- What an expression that was read from `text` has to do with it, if it is a string or
nothing but opaque code. -/
structure ReadFrom (text : Text) (a : Ast) : Prop where
  str : ∀ {value : Text} {delimiter : Char}, a.kind = .str value delimiter →
    ∃ before literal after, (∀ b ∈ before, b.isSpace = true) ∧ (∀ b ∈ after, b.isSpace = true) ∧
      text = before ++ literal ++ after ∧ IsLiteralOf value literal
  code : ∀ {part : Ast} {code : Text}, a.kind = .fragment [part] → part.kind = .code code →
    ∃ before after, (∀ b ∈ before, b.isSpace = true) ∧ (∀ b ∈ after, b.isSpace = true) ∧
      text = before ++ code ++ after

/-- A property of nodes that the readers of opaque code, imports and templates give, and that
says nothing of other nodes. -/
structure HoldsAsRead (src : Text) (P : Ast → Prop) : Prop where
  code : ∀ lo hi : Nat, P (.placed lo hi (.code (src.slice lo hi)))
  importing : ∀ {lo hi : Nat} {found : Read.Reading lo},
    Read.importAt src lo hi = some found → P found.ast
  template : ∀ {tag : Ast} {lo tick : Nat} {parts : TemplateParts} {holes : List Ast},
    src[tick]? = some Ascii.tick → templateParts src tick = some parts →
    List.Forall₂ (fun s a => ReadFrom (s.of src) a) parts.holes holes →
    P (.placed lo parts.stop (.template tag parts.chunks holes))
  other : ∀ {s : Option Span} {k : Kind Ast}, k.form ≠ .code → k.form ≠ .importing →
    k.form ≠ .template → P (.node s k)

namespace Read

open Ast

variable {src : Text} {P : Ast → Prop} {r : Readers}

/-- Readers of trees whose nodes all have a property. -/
structure Readers.Give (src : Text) (P : Ast → Prop) (r : Readers) : Prop where
  expression : ∀ {lo hi : Nat} {a : Ast}, r.expression lo hi = .ok a →
    a.Every P ∧ ReadFrom (src.slice lo hi) a
  element : ∀ {lo hi : Nat} {found : Reading lo}, r.element lo hi = .ok (some found) →
    found.ast.Every P ∧ found.ast.kind.form = .element

section Parts

variable (hP : HoldsAsRead src P)

include hP

/-- A node of another form has the property throughout when its children do. -/
theorem every_other {s : Option Span} {k : Kind Ast}
    (hk : k.form ≠ .code ∧ k.form ≠ .importing ∧ k.form ≠ .template)
    (h : ∀ c ∈ k.children, c.Every P) : (node s k).Every P :=
  every_node.mpr ⟨hP.other hk.1 hk.2.1 hk.2.2, h⟩

/-- A node with nothing below it that is neither code nor an import. -/
theorem every_leaf {s : Option Span} {k : Kind Ast}
    (hk : k.form ≠ .code ∧ k.form ≠ .importing ∧ k.form ≠ .template) (h : k.children = []) :
    (node s k).Every P :=
  every_other hP hk (by simp [h])

/-- The node of a tag has the property throughout. -/
theorem every_tagNode (lo : Nat) (tag : Text) : (tagNode lo tag).Every P := by
  refine tagNode_induct (fun lo hi name => every_leaf hP (by simp [Kind.form]) rfl) ?_ lo tag
  intro lo hi tag property htag
  exact every_other hP (by simp [Kind.form]) (by simpa [Kind.children] using htag)

/-- Code that is not understood has the property throughout. -/
theorem every_opaqueCode (lo hi : Nat) : ∀ a ∈ opaqueCode src lo hi, a.Every P := by
  intro a ha
  obtain ⟨-, rfl⟩ := eq_of_mem_opaqueCode ha
  exact every_node.mpr ⟨hP.code lo hi, by simp [Kind.children]⟩

/-- An import declaration has the property throughout. -/
theorem every_importAt {lo hi : Nat} {found : Reading lo} (h : importAt src lo hi = some found) :
    found.ast.Every P := by
  have hself := hP.importing h
  have hform := form_importAt h
  obtain ⟨⟨s, k⟩, stop, hadv⟩ := found
  refine every_node.mpr ⟨hself, ?_⟩
  cases k <;> simp_all [Kind.form, Kind.children, Ast.kind]

variable (hr : r.Give src P)

include hr

omit hP in
/-- The holes of a template have the property, and each shows what it was read from. -/
theorem every_expressions {ranges : List Span} {as : List Ast}
    (h : r.expressions ranges = .ok as) :
    (∀ a ∈ as, a.Every P) ∧ List.Forall₂ (fun s a => ReadFrom (s.of src) a) ranges as := by
  have hall := mapM_eq_ok h
  clear h
  induction hall with
  | nil => exact ⟨by simp, .nil⟩
  | cons ha _ ih =>
    obtain ⟨hself, hread⟩ := hr.expression ha
    exact ⟨List.forall_mem_cons.mpr ⟨hself, ih.1⟩, .cons hread ih.2⟩

/-- A tagged template has the property throughout when its tag does. -/
theorem every_taggedTemplate {tag : Ast} (htag : tag.Every P) {lo tick : Nat}
    (htick : src[tick]? = some Ascii.tick) {found : Reading tick}
    (h : taggedTemplate r src tag lo tick = .ok found) :
    found.ast.Every P := by
  obtain ⟨parts, holes, hparts, hholes, -, hast⟩ := taggedTemplate_eq_ok h
  obtain ⟨hall, hread⟩ := every_expressions hr hholes
  rw [hast]
  exact every_node.mpr ⟨hP.template htick hparts hread, List.forall_mem_cons.mpr ⟨htag, hall⟩⟩

/-- The pieces of code: opaque text, and what was found between. -/
theorem every_codeFrom {lo hi flushed i : Nat} {as : List Ast}
    (h : codeFrom r src lo hi flushed i = .ok as) : ∀ a ∈ as, a.Every P := by
  -- A piece found behind opaque code and before the rest.
  have hjoin {lo hi : Nat} {found : Ast} {more : List Ast} (hfound : found.Every P)
      (hmore : ∀ a ∈ more, a.Every P) :
      ∀ a ∈ opaqueCode src lo hi ++ found :: more, a.Every P :=
    List.forall_mem_append.mpr
      ⟨every_opaqueCode hP lo hi, List.forall_mem_cons.mpr ⟨hfound, hmore⟩⟩
  replace h := codeTrace h
  induction h with
  | done => exact every_opaqueCode hP _ _
  | pass _ _ _ ih => exact ih
  | template _ htick _ hfound _ ih =>
    exact hjoin (every_taggedTemplate hP hr (every_tagNode hP _ _) htick hfound) ih
  | importing _ _ hfound _ ih => exact hjoin (every_importAt hP hfound) ih
  | element _ _ _ hfound _ ih => exact hjoin (hr.element hfound).1 ih

omit hP in
/-- The expression of a container has the property throughout. -/
theorem every_containerExpression {lo hi : Nat} {expression : Option Ast}
    (h : containerExpression r src lo hi = .ok expression) :
    ∀ a ∈ expression.toList, a.Every P :=
  fun a ha => (hr.expression (expression_of_container h a ha)).1

/-- An attribute that is read has the property throughout. -/
theorem every_attributeAt {lo nameStop hi : Nat} {hlo : lo < nameStop} {found : Reading lo}
    (h : attributeAt r src lo nameStop hi hlo = .ok (some found)) : found.ast.Every P := by
  have hvalue {lo hi : Nat} {name : Text} {value : Ast} (hv : value.Every P) :
      (placed lo hi (.attr name (some value))).Every P :=
    every_other hP (by simp [Kind.form]) (by simpa [Kind.children] using hv)
  cases attributeTrace h with
  | bare => exact every_leaf hP (by simp [Kind.form]) rfl
  | quoted => exact hvalue (every_leaf hP (by simp [Kind.form]) rfl)
  | braced _ _ _ _ _ hexpression =>
    exact hvalue (every_other hP (by simp [Kind.form]) (every_containerExpression hr hexpression))
  | element _ _ _ hread => exact hvalue (hr.element hread).1

/-- The attributes of an opening tag have the property throughout. -/
theorem every_tagTail {hi pos : Nat} {tail : TagTail pos}
    (h : tagTail r src hi pos = .ok (some tail)) : ∀ a ∈ tail.attributes, a.Every P := by
  replace h := tagTrace h
  induction h with
  | selfClosing | closing => simp
  | spread _ _ _ _ _ _ _ hargument _ ih =>
    have hspread := (hr.expression hargument).1
    exact List.forall_mem_cons.mpr
      ⟨every_other hP (by simp [Kind.form]) (by simpa [Kind.children] using hspread), ih⟩
  | attr _ _ _ _ _ _ hfound _ ih =>
    exact List.forall_mem_cons.mpr ⟨every_attributeAt hP hr hfound, ih⟩

/-- The children of an element have the property throughout. -/
theorem every_content {name : Text} {lo hi pos : Nat} {inner : Content pos}
    (h : content r src name lo hi pos = .ok inner) : ∀ a ∈ inner.children, a.Every P := by
  replace h := contentTrace h
  induction h with
  | closing _ hinner =>
    obtain ⟨_, -, -, hchildren, -⟩ := closingTag_eq_ok hinner
    simp [hchildren]
  | child _ _ hfound _ ih => exact List.forall_mem_cons.mpr ⟨(hr.element hfound).1, ih⟩
  | container _ _ _ _ hexpression _ ih =>
    exact List.forall_mem_cons.mpr ⟨every_other hP (by simp [Kind.form])
      (every_containerExpression hr hexpression), ih⟩
  | text _ _ _ _ ih =>
    exact List.forall_mem_cons.mpr ⟨every_leaf hP (by simp [Kind.form]) rfl, ih⟩

/-- An element that is read has the property throughout. -/
theorem every_element {lo hi : Nat} {found : Reading lo}
    (h : element r src lo hi = .ok (some found)) : found.ast.Every P := by
  have hopening {lo hi pos : Nat} {name : Text} {tag : TagTail pos}
      (htag : tagTail r src hi pos = .ok (some tag)) :
      (placed lo tag.stop (.opening name tag.attributes tag.selfClosing)).Every P :=
    every_other hP (by simp [Kind.form]) (every_tagTail hP hr htag)
  cases elementTrace h with
  | alone _ htag =>
    exact every_other hP (by simp [Kind.form]) (by simpa [Kind.children] using hopening htag)
  | around _ _ htag hinner =>
    exact every_other hP (by simp [Kind.form])
      (List.forall_mem_cons.mpr ⟨hopening htag, every_content hP hr hinner⟩)

/-- A chain of calls and members has the property when its operand does. -/
theorem every_chain {lo hi pos : Nat} {operand : Ast} {found : Reading lo}
    (hoperand : operand.Every P) (h : ChainTrace r src lo hi operand pos found) :
    found.ast.Every P := by
  induction h with
  | done => exact hoperand
  | member _ _ _ _ ih =>
    exact ih (every_other hP (by simp [Kind.form]) (by simpa [Kind.children] using hoperand))
  | call _ _ _ _ _ harguments _ ih =>
    exact ih (every_other hP (by simp [Kind.form])
      (List.forall_mem_cons.mpr ⟨hoperand, (every_expressions hr harguments).1⟩))
  | template _ htick htagged _ ih => exact ih (every_taggedTemplate hP hr hoperand htick htagged)

/-- The first operand of an expression has the property throughout. -/
theorem every_operand {lo hi : Nat} {found : Reading lo}
    (h : operand r src lo hi = .ok (some found)) : found.ast.Every P := by
  cases operandTrace h with
  | string _ _ _ _ htrace | ident _ _ _ htrace =>
    refine every_chain hP hr ?_ htrace
    exact every_leaf hP (by simp [Kind.form]) rfl
  | array _ _ _ _ helements htrace =>
    refine every_chain hP hr ?_ htrace
    exact every_other hP (by simp [Kind.form]) (every_expressions hr helements).1
  | element _ hfound => exact (hr.element hfound).1

/-- An expression that is read has the property throughout. -/
theorem every_expression {lo hi : Nat} {a : Ast} (h : expression r src lo hi = .ok a) :
    a.Every P := by
  cases expressionTrace h with
  | blank => exact every_leaf hP (by simp [Kind.form]) rfl
  | operand hfound => exact every_operand hP hr hfound
  | code hparts => exact every_other hP (by simp [Kind.form]) (every_codeFrom hP hr hparts)

end Parts

/-- What is read as an element is one. -/
theorem form_element {lo hi : Nat} {found : Reading lo}
    (h : element r src lo hi = .ok (some found)) : found.ast.kind.form = .element := by
  cases elementTrace h <;> rfl

/-! ### What stands in a range -/

/-- A range is white space, the range without it, and white space. -/
theorem slice_shrink (src : Text) (lo hi : Nat) :
    ∃ before after, (∀ b ∈ before, b.isSpace = true) ∧ (∀ b ∈ after, b.isSpace = true) ∧
      src.slice lo hi = before ++ (shrink src lo hi).of src ++ after := by
  obtain ⟨before, hbefore⟩ : ∃ t, t = (src.slice lo hi).takeWhile Byte.isSpace := ⟨_, rfl⟩
  obtain ⟨inner, hinner⟩ : ∃ t, t = (src.slice lo hi).dropWhile Byte.isSpace := ⟨_, rfl⟩
  have hsplit : src.slice lo hi = before ++ inner := by
    rw [hbefore, hinner, List.takeWhile_append_dropWhile]
  have hstart : skipSpace src lo hi = lo + before.length := by rw [skipSpace, hbefore]
  have hrest : src.slice (lo + before.length) hi = inner := by
    have hlength := congrArg List.length hsplit
    rw [Text.slice, List.length_take, List.length_drop, List.length_append] at hlength
    rw [Text.slice, ← List.drop_drop,
      show hi - (lo + before.length) = hi - lo - before.length by omega, ← List.drop_take]
    exact (congrArg (List.drop before.length) hsplit).trans (List.drop_left ..)
  have hfilled : (shrink src lo hi).of src = (inner.reverse.dropWhile Byte.isSpace).reverse := by
    have hinside : inner <+: src.drop (lo + before.length) := hrest ▸ List.take_prefix ..
    have hlead : (inner.reverse.dropWhile Byte.isSpace).reverse <+: inner := by
      rw [← List.reverse_suffix, List.reverse_reverse]
      exact List.dropWhile_suffix _
    rw [shrink, hstart, hrest, Span.of, Text.slice, Nat.add_sub_cancel_left, ← List.length_reverse]
    exact (List.prefix_iff_eq_take.mp (hlead.trans hinside)).symm
  refine ⟨before, (inner.reverse.takeWhile Byte.isSpace).reverse, ?_, ?_, ?_⟩
  · rw [hbefore]
    exact fun b hb => List.mem_takeWhile_imp hb
  · exact fun b hb => List.mem_takeWhile_imp (List.mem_reverse.mp hb)
  · rw [hfilled, List.append_assoc, ← List.reverse_append, List.takeWhile_append_dropWhile,
      List.reverse_reverse, hsplit]

/-- What is chained to an operand is not a string and no fragment. -/
theorem chain_cases {lo hi pos : Nat} {base : Ast} {found : Reading lo}
    (h : ChainTrace r src lo hi base pos found) :
    found.ast = base ∧ found.stop = pos ∨
      found.ast.kind.form ≠ .str ∧ found.ast.kind.form ≠ .fragment := by
  have hchained {base' : Ast} {pos' : Nat} {found : Reading lo}
      (h : found.ast = base' ∧ found.stop = pos' ∨
        found.ast.kind.form ≠ .str ∧ found.ast.kind.form ≠ .fragment)
      (hbase : base'.kind.form ≠ .str ∧ base'.kind.form ≠ .fragment) :
      found.ast.kind.form ≠ .str ∧ found.ast.kind.form ≠ .fragment := by
    rcases h with ⟨hast, -⟩ | h
    · rwa [hast]
    · exact h
  induction h with
  | done => exact .inl ⟨rfl, rfl⟩
  | member _ _ _ _ ih => exact .inr (hchained ih ⟨Form.noConfusion, Form.noConfusion⟩)
  | call _ _ _ _ _ _ _ ih => exact .inr (hchained ih ⟨Form.noConfusion, Form.noConfusion⟩)
  | template _ _ htagged _ ih =>
    exact .inr (hchained ih (by rw [form_taggedTemplate htagged]; decide))

/-- What an operand that was read up to `hi` has to do with the text, if it is a string. -/
structure OperandFrom (src : Text) (lo hi : Nat) (found : Reading lo) : Prop where
  fragment : found.ast.kind.form ≠ .fragment
  str : ∀ {value : Text} {delimiter : Char}, found.ast.kind = .str value delimiter →
    found.stop ≤ hi ∧ IsLiteralOf value (src.slice lo found.stop)

/-- An operand that is neither a string nor a fragment owes nothing to the text. -/
theorem OperandFrom.of_form {lo hi : Nat} {found : Reading lo}
    (h : found.ast.kind.form ≠ .str ∧ found.ast.kind.form ≠ .fragment) :
    OperandFrom src lo hi found :=
  ⟨h.2, fun hkind => absurd (by rw [hkind]; rfl) h.1⟩

/-- A chain from an operand that is no string is none either. -/
theorem OperandFrom.of_chain {lo hi pos : Nat} {base : Ast} {found : Reading lo}
    (h : ChainTrace r src lo hi base pos found)
    (hbase : base.kind.form ≠ .str ∧ base.kind.form ≠ .fragment) :
    OperandFrom src lo hi found := by
  rcases chain_cases h with ⟨hast, -⟩ | hforms
  · exact .of_form (hast ▸ hbase)
  · exact .of_form hforms

/-- A string read as an operand is a literal of it in the text. -/
theorem operandFrom_operand (hr : r.Give src P) {lo hi : Nat} {found : Reading lo}
    (h : operand r src lo hi = .ok (some found)) : OperandFrom src lo hi found := by
  cases operandTrace h with
  | @string q rest n found hdrop hquote htail hle htrace =>
    rcases chain_cases htrace with ⟨hbase, hend⟩ | hforms
    · refine ⟨by rw [hbase]; exact Form.noConfusion, fun hkind => ?_⟩
      obtain ⟨raw, post, rfl, rfl, hraw⟩ := exists_of_stringTail htail
      rw [hbase] at hkind
      obtain ⟨rfl, -⟩ := Kind.str.inj hkind
      have hwhole : src.drop lo = q :: (raw ++ [q]) ++ post := by
        rw [hdrop]
        simp
      refine ⟨hend ▸ hle, q, raw, ?_, hquote, hraw, ?_⟩
      · rw [hend]
        refine slice_of_drop_eq hwhole ?_
        simp
        omega
      · rw [Nat.add_sub_cancel, List.take_left]
    · exact .of_form hforms
  | array _ _ _ _ _ htrace => exact .of_chain htrace ⟨Form.noConfusion, Form.noConfusion⟩
  | element _ hfound => exact .of_form (by rw [(hr.element hfound).2]; decide)
  | ident _ _ _ htrace => exact .of_chain htrace ⟨Form.noConfusion, Form.noConfusion⟩

/-- Code in which nothing is found is the text of its range. -/
theorem code_of_codeFrom (hr : r.Give src P) {lo hi flushed i : Nat} {part : Ast} {text : Text}
    (h : codeFrom r src lo hi flushed i = .ok [part]) (hpart : part.kind = .code text) :
    text = src.slice flushed hi := by
  obtain ⟨as, has⟩ : ∃ as, as = [part] := ⟨_, rfl⟩
  -- What was found would be a piece of its own.
  have hfound {found : Ast} {pieces more : List Ast} {f : Form} (hform : found.kind.form = f)
      (hf : f ≠ .code) : pieces ++ found :: more ≠ [part] := by
    intro heq
    have hmem : found ∈ [part] := by
      rw [← heq]
      simp
    obtain rfl := List.mem_singleton.mp hmem
    rw [hpart] at hform
    exact hf hform.symm
  rw [← has] at h
  replace h := codeTrace h
  induction h with
  | done =>
    obtain ⟨-, rfl⟩ := eq_of_mem_opaqueCode (has ▸ List.mem_singleton_self part)
    exact (Kind.code.inj hpart).symm
  | pass _ _ _ ih => exact ih has
  | template _ _ _ hread => exact absurd has (hfound (form_taggedTemplate hread) (by decide))
  | importing _ _ hread => exact absurd has (hfound (form_importAt hread) (by decide))
  | element _ _ _ hread => exact absurd has (hfound (hr.element hread).2 (by decide))

/-- An expression shows the text it was read from. -/
theorem readFrom_expression (hr : r.Give src P) {lo hi : Nat} {a : Ast}
    (h : expression r src lo hi = .ok a) : ReadFrom (src.slice lo hi) a := by
  obtain ⟨before, after, hbefore, hafter, hslice⟩ := slice_shrink src lo hi
  cases expressionTrace h with
  | blank =>
    exact ⟨fun hkind => absurd hkind (by simp [placed, Ast.kind]),
      fun hkind => absurd hkind (by simp [placed, Ast.kind])⟩
  | code hparts =>
    refine ⟨fun hkind => absurd hkind (by simp [placed, Ast.kind]), fun hkind hpart => ?_⟩
    obtain rfl := Kind.fragment.inj hkind
    exact ⟨before, after, hbefore, hafter, by rw [code_of_codeFrom hr hparts hpart, hslice]; rfl⟩
  | @operand found hfound hspace =>
    obtain ⟨hfragment, hstr⟩ := operandFrom_operand hr hfound
    refine ⟨fun hkind => ?_, fun hkind => absurd (by rw [hkind]; rfl) hfragment⟩
    obtain ⟨hstop, hliteral⟩ := hstr hkind
    obtain ⟨behind, hbehind⟩ : ∃ t, t = src.slice found.stop (shrink src lo hi).hi := ⟨_, rfl⟩
    have hspaces : ∀ b ∈ behind, b.isSpace = true := by
      have hrun : found.stop + (behind.takeWhile Byte.isSpace).length =
          (shrink src lo hi).hi := by rw [hbehind]; exact hspace
      have hlength : behind.length ≤ (shrink src lo hi).hi - found.stop := by
        rw [hbehind]
        exact List.length_take_le ..
      have hall := (List.takeWhile_prefix Byte.isSpace).eq_of_length_le
        (by omega : behind.length ≤ _)
      exact fun b hb => List.mem_takeWhile_imp (hall.symm ▸ hb)
    refine ⟨before, _, behind ++ after, hbefore,
      List.forall_mem_append.mpr ⟨hspaces, hafter⟩, ?_, hliteral⟩
    rw [hslice, Span.of, ← Text.slice_append_slice _ found.advances.le hstop, hbehind]
    simp

/-- The readers of every depth give what holds as it is read. -/
theorem give_readers (hP : HoldsAsRead src P) (depth : Nat) : (readers src depth).Give src P := by
  induction depth with
  | zero => exact ⟨fun h => absurd h (by simp [readers]), fun h => absurd h (by simp [readers])⟩
  | succ depth ih =>
    have hbelow :
        Readers.Give src P ⟨(readers src depth).expression, element (readers src depth) src⟩ :=
      ⟨fun h => ih.expression h, fun h => ⟨every_element hP ih h, form_element h⟩⟩
    exact ⟨fun h => ⟨every_expression hP hbelow h, readFrom_expression hbelow h⟩,
      fun h => ⟨every_element hP ih h, form_element h⟩⟩

/-- **What holds of code, imports and templates as they are read holds of a module.** -/
theorem every_program (hP : HoldsAsRead src P) {body : List Ast} (h : program src = .ok body) :
    ∀ a ∈ body, a.Every P :=
  every_codeFrom hP (give_readers hP _) h

end Read

/-- So what a node of a module shows has the property. -/
theorem Tree.holds_of_read {src : Text} {P : Ast → Prop} (hP : HoldsAsRead src P) {t : Tree}
    (ht : Tree.ofSource src = .ok t) {n : NodeId} (hlt : n < t.size) (hform : t.form n ≠ .program) :
    ∃ b : Ast, t.Depicts n b ∧ P b := by
  obtain ⟨body, hbody, rfl⟩ := map_eq_ok.mp ht
  have hholds := Tree.ofBody_holds src body
  have hroot : n ≠ root := by
    rintro rfl
    obtain ⟨ids, hkind, -⟩ := hholds.program
    exact hform (congrArg Kind.form hkind)
  obtain ⟨a, ha, b, hsub, hdepicts, -⟩ := hholds.others n hroot hlt
  exact ⟨b, hdepicts, Read.every_program hP hbody a ha b hsub⟩

namespace Ast

/-- Opaque code in the tree is what `src` has in its place. -/
def Verbatim (src : Text) (a : Ast) : Prop :=
  a.Every fun b => ∀ code, b.kind = .code code → ∃ s, b.span = some s ∧ code = s.of src

end Ast

namespace Read

/-- Opaque code of a module is what the module has in its place. -/
theorem verbatim_program {src : Text} {body : List Ast} (h : program src = .ok body) :
    ∀ a ∈ body, a.Verbatim src := by
  refine every_program ⟨fun lo hi => ?_, fun hfound => ?_, fun _ _ _ => ?_, fun hk _ _ => ?_⟩ h
  · exact fun code hcode => ⟨⟨lo, hi⟩, rfl, (Kind.code.inj hcode).symm⟩
  · exact fun code hcode => absurd (form_importAt hfound) (by rw [hcode]; exact Form.noConfusion)
  · exact fun code hcode => absurd hcode (by simp [Ast.kind, Ast.placed])
  · rintro code rfl
    exact absurd rfl hk

end Read

end JsxStyle
