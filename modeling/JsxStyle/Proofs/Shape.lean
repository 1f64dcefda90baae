import JsxStyle.Proofs.Graft
import JsxStyle.Proofs.Traces

/-!
# What stands where in a tree that was read

Some forms have their place: attributes stand in opening tags, opening tags in
elements, import statements in code, and the program nowhere.  Every tree that
the readers build keeps to this, every node of it has a place in the source, and
a template has one chunk more than it has holes.
The readers of nested things are handed down level by level, so the proof
assumes it of the readers one level down and shows it of those one level up.

* `fits_program`: of the nodes of a module;
* `wellShaped_snippet`: of the tree of a snippet, which has no places.
-/

namespace JsxStyle

namespace Form

/-- Whether a node of form `inner` may stand directly below one of form `outer`. -/
def Admits (outer : Form) : (inner : Form) → Prop
  | .attr => outer = .opening
  | .opening => outer = .element
  | .importing => outer = .program ∨ outer = .fragment
  | .program => False
  | _ => True

/-- A form that may stand below any other. -/
def Loose : Form → Prop
  | .attr | .opening | .importing | .program => False
  | _ => True

/-- What may stand as an expression is admitted by every form that holds expressions. -/
theorem Loose.admits {inner : Form} (h : inner.Loose) (outer : Form) : outer.Admits inner := by
  cases inner <;> simp_all [Loose, Admits]

end Form

/-- A template has a chunk before each hole and one behind the last. -/
def Kind.Paired {α : Type} : Kind α → Prop
  | template _ chunks holes => chunks.length = holes.length + 1
  | _ => True

/-- Whether the parts of a node are paired does not depend on what the parts are. -/
theorem Kind.paired_map {α β : Type} (f : α → β) (k : Kind α) : (k.map f).Paired ↔ k.Paired := by
  cases k <;> simp [Kind.map, Paired]

namespace Ast

/-- Every node stands where its form may stand. -/
def WellShaped (a : Ast) : Prop :=
  a.Every fun b => ∀ c ∈ b.kind.children, b.kind.form.Admits c.kind.form

/-- A tree as the readers build it: well shaped, placed in the source throughout, and
with the chunks of templates around their holes. -/
def Fits (a : Ast) : Prop :=
  a.WellShaped ∧ a.Every fun b => b.span.isSome ∧ b.kind.Paired

/-- A tree that fits and may stand anywhere. -/
def FitsLoosely (a : Ast) : Prop :=
  a.Fits ∧ a.kind.form.Loose

/-- A placed node fits when its children do and its form admits theirs. -/
theorem fits_placed {lo hi : Nat} {k : Kind Ast} (hpaired : k.Paired)
    (h : ∀ c ∈ k.children, c.Fits ∧ k.form.Admits c.kind.form) : (placed lo hi k).Fits := by
  constructor
  · exact every_node.mpr ⟨fun c hc => (h c hc).2, fun c hc => (h c hc).1.1⟩
  · exact every_node.mpr ⟨⟨rfl, hpaired⟩, fun c hc => (h c hc).1.2⟩

/-- A placed expression fits when its operands do. -/
theorem fitsLoosely_placed {lo hi : Nat} {k : Kind Ast} (hk : k.form.Loose) (hpaired : k.Paired)
    (h : ∀ c ∈ k.children, c.FitsLoosely) : (placed lo hi k).FitsLoosely :=
  ⟨fits_placed hpaired fun c hc => ⟨(h c hc).1, (h c hc).2.admits _⟩, hk⟩

/-- Leaving the span of a node out leaves those of its children out. -/
theorem unplaced_node (s : Option Span) (k : Kind Ast) :
    (node s k).unplaced = node none (k.map unplaced) :=
  fold_node ..

/-- The form of a node does not depend on its span. -/
@[simp] theorem form_unplaced (a : Ast) : a.unplaced.kind.form = a.kind.form := by
  cases a with
  | node s k => rw [unplaced_node]; exact Kind.form_map ..

/-- A well-shaped tree stays so without its spans. -/
theorem WellShaped.unplaced {a : Ast} (h : a.WellShaped) : a.unplaced.WellShaped := by
  induction a using Ast.induction with
  | h s k ih =>
    obtain ⟨hself, hbelow⟩ := every_node.mp h
    rw [unplaced_node]
    refine every_node.mpr ⟨?_, ?_⟩
    · intro c hc
      rw [kind, Kind.children_map] at hc
      obtain ⟨d, hd, rfl⟩ := List.mem_map.mp hc
      rw [kind, Kind.form_map, form_unplaced]
      exact hself d hd
    · intro c hc
      rw [Kind.children_map] at hc
      obtain ⟨d, hd, rfl⟩ := List.mem_map.mp hc
      exact ih d hd (hbelow d hd)

/-- No node of a tree whose spans are left out has a span. -/
theorem every_unplaced (a : Ast) : a.unplaced.Every fun b => b.span = none := by
  induction a using Ast.induction with
  | h s k ih =>
    rw [unplaced_node]
    refine every_node.mpr ⟨rfl, fun c hc => ?_⟩
    rw [Kind.children_map] at hc
    obtain ⟨d, hd, rfl⟩ := List.mem_map.mp hc
    exact ih d hd

end Ast

namespace Read

open Ast

/-- Readers whose results fit. -/
structure Readers.Sound (r : Readers) : Prop where
  expression : ∀ {lo hi : Nat} {a : Ast}, r.expression lo hi = .ok a → a.FitsLoosely
  element : ∀ {lo hi : Nat} {found : Reading lo}, r.element lo hi = .ok (some found) →
    found.ast.FitsLoosely

section Parts

variable {r : Readers} (hr : r.Sound) {src : Text}

include hr

/-- The expressions read in the holes of a template fit as expressions. -/
theorem fits_expressions {ranges : List Span} {as : List Ast}
    (h : r.expressions ranges = .ok as) : ∀ a ∈ as, a.FitsLoosely := by
  have hall := mapM_eq_ok h
  clear h
  induction hall with
  | nil => simp
  | cons ha _ ih =>
    intro a hmem
    rcases List.mem_cons.mp hmem with rfl | hmem
    · exact hr.expression ha
    · exact ih a hmem

/-- A tagged template fits as an expression when its tag does. -/
theorem fits_taggedTemplate {tag : Ast} (htag : tag.FitsLoosely) {lo tick : Nat}
    {found : Reading tick} (h : taggedTemplate r src tag lo tick = .ok found) :
    found.ast.FitsLoosely := by
  obtain ⟨parts, holes, hparts, hholes, -, hast⟩ := taggedTemplate_eq_ok h
  have hpaired : parts.chunks.length = holes.length + 1 := by
    rw [Scan.length_chunks_of_templateTail hparts, (mapM_eq_ok hholes).length_eq]
  rw [hast]
  refine fitsLoosely_placed trivial hpaired fun c hc => ?_
  rcases List.mem_cons.mp hc with rfl | hc
  · exact htag
  · exact fits_expressions hr hholes c hc

omit hr in
/-- A node without parts fits anywhere. -/
theorem fitsLoosely_leaf {lo hi : Nat} {k : Kind Ast} (hk : k.form.Loose) (hpaired : k.Paired)
    (hchildren : k.children = []) : (placed lo hi k).FitsLoosely :=
  fitsLoosely_placed hk hpaired (by simp [hchildren])

omit hr in
/-- The node of a tag fits as an expression. -/
theorem fits_tagNode (lo : Nat) (tag : Text) : (tagNode lo tag).FitsLoosely := by
  refine tagNode_induct (fun lo hi name => fitsLoosely_leaf trivial trivial rfl) ?_ lo tag
  intro lo hi tag property htag
  refine fitsLoosely_placed trivial trivial fun c hc => ?_
  obtain rfl : c = tag := by simpa [Kind.children] using hc
  exact htag

omit hr in
/-- Code that is not understood fits and may stand in a fragment. -/
theorem fits_opaqueCode (lo hi : Nat) :
    ∀ a ∈ opaqueCode src lo hi, a.Fits ∧ Form.Admits .fragment a.kind.form := by
  intro a ha
  obtain ⟨-, rfl⟩ := eq_of_mem_opaqueCode ha
  have h : (Ast.placed lo hi (.code (src.slice lo hi))).FitsLoosely :=
    fitsLoosely_leaf trivial trivial rfl
  exact ⟨h.1, h.2.admits _⟩

omit hr in
/-- An import declaration that is found fits and may stand in a fragment. -/
theorem fits_importAt {lo hi : Nat} {found : Reading lo} (h : importAt src lo hi = some found) :
    found.ast.Fits ∧ Form.Admits .fragment found.ast.kind.form := by
  obtain ⟨_, _, _, _, decl, -, -, -, -, hast⟩ := importAt_eq_some h
  rw [hast]
  exact ⟨fits_placed trivial (by simp [Kind.children]), Or.inr rfl⟩

/-- The pieces of code: opaque text, and what was found between. -/
theorem fits_codeFrom {lo hi flushed i : Nat} {as : List Ast}
    (h : codeFrom r src lo hi flushed i = .ok as) :
    ∀ a ∈ as, a.Fits ∧ Form.Admits .fragment a.kind.form := by
  have hloose {a : Ast} (ha : a.FitsLoosely) : a.Fits ∧ Form.Admits .fragment a.kind.form :=
    ⟨ha.1, ha.2.admits _⟩
  -- A piece found behind opaque code and before the rest.
  have hjoin {lo hi : Nat} {found : Ast} {more : List Ast}
      (hfound : found.Fits ∧ Form.Admits .fragment found.kind.form)
      (hmore : ∀ a ∈ more, a.Fits ∧ Form.Admits .fragment a.kind.form) :
      ∀ a ∈ opaqueCode src lo hi ++ found :: more,
        a.Fits ∧ Form.Admits .fragment a.kind.form := by
    intro a ha
    rcases List.mem_append.mp ha with ha | ha
    · exact fits_opaqueCode lo hi a ha
    · rcases List.mem_cons.mp ha with rfl | ha
      · exact hfound
      · exact hmore a ha
  replace h := codeTrace h
  induction h with
  | done => exact fits_opaqueCode _ _
  | pass _ _ _ ih => exact ih
  | template _ _ _ hfound _ ih =>
    exact hjoin (hloose (fits_taggedTemplate hr (fits_tagNode _ _) hfound)) ih
  | importing _ _ hfound _ ih => exact hjoin (fits_importAt hfound) ih
  | element _ _ _ hfound _ ih => exact hjoin (hloose (hr.element hfound)) ih

/-- The expression of a container fits as an expression. -/
theorem fits_containerExpression {lo hi : Nat} {expression : Option Ast}
    (h : containerExpression r src lo hi = .ok expression) :
    ∀ a ∈ expression.toList, a.FitsLoosely :=
  fun a ha => hr.expression (expression_of_container h a ha)

/-- What is read as an attribute fits and is one. -/
theorem fits_attributeAt {lo nameStop hi : Nat} {hlo : lo < nameStop} {found : Reading lo}
    (h : attributeAt r src lo nameStop hi hlo = .ok (some found)) :
    found.ast.Fits ∧ found.ast.kind.form = .attr := by
  have hattr {lo hi : Nat} {name : Text} {value : Ast} (hvalue : value.FitsLoosely) :
      (placed lo hi (.attr name (some value))).Fits := by
    refine fits_placed trivial fun c hc => ?_
    obtain rfl : c = value := by simpa [Kind.children] using hc
    exact ⟨hvalue.1, hvalue.2.admits _⟩
  cases attributeTrace h with
  | bare => exact ⟨fits_placed trivial (by simp [Kind.children]), rfl⟩
  | quoted => exact ⟨hattr (fitsLoosely_leaf trivial trivial rfl), rfl⟩
  | braced _ _ _ _ _ hexpression =>
    exact ⟨hattr (fitsLoosely_placed trivial trivial (fits_containerExpression hr hexpression)),
      rfl⟩
  | element _ _ _ hvalue => exact ⟨hattr (hr.element hvalue), rfl⟩

/-- The attributes of an opening tag fit and may stand in it. -/
theorem fits_tagTail {hi pos : Nat} {tail : TagTail pos}
    (h : tagTail r src hi pos = .ok (some tail)) :
    ∀ a ∈ tail.attributes, a.Fits ∧ Form.Admits .opening a.kind.form := by
  replace h := tagTrace h
  induction h with
  | selfClosing | closing => simp
  | spread _ _ _ _ _ _ _ hargument _ ih =>
    refine List.forall_mem_cons.mpr ⟨⟨fits_placed trivial fun c hc => ?_, trivial⟩, ih⟩
    obtain rfl := List.mem_singleton.mp hc
    exact ⟨(hr.expression hargument).1, (hr.expression hargument).2.admits _⟩
  | attr _ _ _ _ _ _ hfound _ ih =>
    obtain ⟨hfits, hform⟩ := fits_attributeAt hr hfound
    exact List.forall_mem_cons.mpr ⟨⟨hfits, hform ▸ rfl⟩, ih⟩

/-- The children of an element fit as expressions. -/
theorem fits_content {name : Text} {lo hi pos : Nat} {inner : Content pos}
    (h : content r src name lo hi pos = .ok inner) : ∀ a ∈ inner.children, a.FitsLoosely := by
  replace h := contentTrace h
  induction h with
  | closing _ hinner =>
    obtain ⟨_, -, -, hchildren, -⟩ := closingTag_eq_ok hinner
    simp [hchildren]
  | child _ _ hfound _ ih => exact List.forall_mem_cons.mpr ⟨hr.element hfound, ih⟩
  | container _ _ _ _ hexpression _ ih =>
    exact List.forall_mem_cons.mpr
      ⟨fitsLoosely_placed trivial trivial (fits_containerExpression hr hexpression), ih⟩
  | text _ _ _ _ ih =>
    exact List.forall_mem_cons.mpr ⟨fitsLoosely_leaf trivial trivial rfl, ih⟩

/-- An element that is read fits as an expression. -/
theorem fits_element {lo hi : Nat} {found : Reading lo}
    (h : element r src lo hi = .ok (some found)) : found.ast.FitsLoosely := by
  have hopening {lo hi pos : Nat} {name : Text} {tag : TagTail pos}
      (htag : tagTail r src hi pos = .ok (some tag)) :
      (placed lo tag.stop (.opening name tag.attributes tag.selfClosing)).Fits :=
    fits_placed trivial fun c hc => fits_tagTail hr htag c hc
  cases elementTrace h with
  | alone _ htag =>
    refine ⟨fits_placed trivial fun c hc => ?_, trivial⟩
    obtain rfl := List.mem_singleton.mp hc
    exact ⟨hopening htag, rfl⟩
  | around _ _ htag hinner =>
    refine ⟨fits_placed trivial fun c hc => ?_, trivial⟩
    rcases List.mem_cons.mp hc with rfl | hc
    · exact ⟨hopening htag, rfl⟩
    · have hchild := fits_content hr hinner c hc
      exact ⟨hchild.1, hchild.2.admits _⟩

/-- A chain of calls and members fits when the operand it starts from does. -/
theorem fits_chain {lo hi pos : Nat} {operand : Ast} {found : Reading lo}
    (hoperand : operand.FitsLoosely) (h : ChainTrace r src lo hi operand pos found) :
    found.ast.FitsLoosely := by
  induction h with
  | done => exact hoperand
  | member _ _ _ _ ih =>
    refine ih (fitsLoosely_placed trivial trivial fun c hc => ?_)
    obtain rfl := List.mem_singleton.mp hc
    exact hoperand
  | call _ _ _ _ _ harguments _ ih =>
    refine ih (fitsLoosely_placed trivial trivial fun c hc => ?_)
    rcases List.mem_cons.mp hc with rfl | hc
    · exact hoperand
    · exact fits_expressions hr harguments c hc
  | template _ _ htagged _ ih => exact ih (fits_taggedTemplate hr hoperand htagged)

/-- The first operand of an expression fits as an expression. -/
theorem fits_operand {lo hi : Nat} {found : Reading lo}
    (h : operand r src lo hi = .ok (some found)) : found.ast.FitsLoosely := by
  cases operandTrace h with
  | string _ _ _ _ htrace | ident _ _ _ htrace =>
    refine fits_chain hr ?_ htrace
    exact fitsLoosely_leaf trivial trivial rfl
  | array _ _ _ _ helements htrace =>
    refine fits_chain hr ?_ htrace
    exact fitsLoosely_placed trivial trivial (fits_expressions hr helements)
  | element _ hfound => exact hr.element hfound

/-- Every expression that is read fits as an expression. -/
theorem fits_expression {lo hi : Nat} {a : Ast} (h : expression r src lo hi = .ok a) :
    a.FitsLoosely := by
  cases expressionTrace h with
  | blank => exact fitsLoosely_leaf trivial trivial rfl
  | operand hfound => exact fits_operand hr hfound
  | code hparts => exact ⟨fits_placed trivial fun c hc => fits_codeFrom hr hparts c hc, trivial⟩

end Parts

/-- The readers of every depth build trees that fit. -/
theorem sound_readers (src : Text) (depth : Nat) : (readers src depth).Sound := by
  induction depth with
  | zero => exact ⟨fun h => absurd h (by simp [readers]), fun h => absurd h (by simp [readers])⟩
  | succ depth ih =>
    have hbelow : Readers.Sound ⟨(readers src depth).expression, element (readers src depth) src⟩ :=
      ⟨fun h => ih.expression h, fun h => fits_element ih h⟩
    exact ⟨fun h => fits_expression hbelow h, fun h => fits_element ih h⟩

/-- The nodes of a module fit, each where code may have it. -/
theorem fits_program {src : Text} {body : List Ast} (h : program src = .ok body) :
    ∀ a ∈ body, a.Fits ∧ Form.Admits .fragment a.kind.form :=
  fits_codeFrom (sound_readers ..) h

/-- The tree of a snippet is well shaped, has no places, and may stand anywhere. -/
theorem wellShaped_snippet {src : Text} {a : Ast} (h : snippet src = .ok a) :
    a.WellShaped ∧ (a.Every fun b => b.span = none) ∧ a.kind.form.Loose := by
  obtain ⟨b, hb, rfl⟩ := map_eq_ok.mp h
  obtain ⟨hfits, hloose⟩ := (sound_readers src _).expression hb
  exact ⟨hfits.1.unplaced, every_unplaced b, (form_unplaced b).symm ▸ hloose⟩

end Read

end JsxStyle
