import JsxStyle.Proofs.Faults
import Mathlib.Algebra.GroupWithZero.Nat

/-!
# Places nest

A reader is given a range, and the scanners that it calls do not know where the
range ends.  Elements and what stands in brackets are held within it: a scanner
that comes out behind the end is taken for one that found nothing.  Two nodes are
not.  A template is taken as it is where code is searched for it, and an import
is with the line break behind it.  After either the search is over, so only
the last part of a fragment may end behind the fragment, and it begins inside.

* `Ast.Nested`: every node has a place between seams, filled by the nodes below;
* `nested_codeFrom`: the parts of code, of which the last may overrun;
* `nested_program`: a module is never overrun, as nothing lies behind it.
-/

namespace JsxStyle

open Ascii

section

variable {α : Type}

/-- Things in order whose last, a template or an import, begins before `hi` and ends behind it. -/
def Overrun (span : α → Option Span) (form : α → Form) (lo hi : Nat) (as : List α) : Prop :=
  ∃ (init : List α) (last : α) (s : Span), as = init ++ [last] ∧ InOrder span lo s.lo init ∧
    span last = some s ∧ s.lo < hi ∧ hi < s.hi ∧ (form last = .template ∨ form last = .importing)

/-- How the places of nodes fill the place of the node above, which is of form
`above`: one behind the other, except that a fragment may be overrun. -/
def Fills (span : α → Option Span) (form : α → Form) (above : Form) (lo hi : Nat)
    (as : List α) : Prop :=
  InOrder span lo hi as ∨ above = .fragment ∧ Overrun span form lo hi as

variable {span : α → Option Span} {form : α → Form} {above : Form} {lo mid hi : Nat}
  {as bs : List α}

/-- What overruns the end still does with more in front of it. -/
theorem InOrder.overrun (h : InOrder span lo mid as) (h' : Overrun span form mid hi bs) :
    Overrun span form lo hi (as ++ bs) := by
  obtain ⟨init, last, s, rfl, hinit, hlast⟩ := h'
  exact ⟨as ++ init, last, s, (List.append_assoc ..).symm, h.append hinit, hlast⟩

/-- What fills a range up to its end still does with more in front of it. -/
theorem InOrder.fills (h : InOrder span lo mid as) (h' : Fills span form above mid hi bs) :
    Fills span form above lo hi (as ++ bs) := by
  rcases h' with horder | ⟨hform, hover⟩
  · exact .inl (h.append horder)
  · exact .inr ⟨hform, h.overrun hover⟩

variable {β : Type} {span' : β → Option Span} {form' : β → Form} {bs' : List β}

/-- Order depends on nothing but the places. -/
theorem InOrder.of_forall₂ (hsame : List.Forall₂ (fun b a => span' b = span a) bs' as)
    (h : InOrder span lo hi as) : InOrder span' lo hi bs' := by
  induction hsame generalizing lo with
  | nil => exact h
  | cons hspan _ ih =>
    obtain ⟨s, hs, hlo, hle, hmore⟩ := h
    exact ⟨s, hspan.trans hs, hlo, hle, ih hmore⟩

/-- Filling depends on nothing but the places and the forms. -/
theorem Fills.of_forall₂
    (hsame : List.Forall₂ (fun b a => span' b = span a ∧ form' b = form a) bs' as)
    (h : Fills span form above lo hi as) : Fills span' form' above lo hi bs' := by
  refine h.imp (.of_forall₂ (hsame.imp fun _ _ h => h.1)) ?_
  rintro ⟨habove, init, last, s, rfl, hinit, hs, hlo, hhi, hlast⟩
  have hinit' := List.forall₂_take_append _ _ _ hsame
  have hlast' := List.forall₂_drop_append _ _ _ hsame
  rw [← List.take_append_drop init.length bs']
  obtain ⟨last', tail, ⟨hspan, hform⟩, hnil, heq⟩ := List.forall₂_cons_right_iff.mp hlast'
  rw [List.forall₂_nil_right_iff.mp hnil] at heq
  rw [heq]
  exact ⟨habove, _, last', s, rfl, hinit.of_forall₂ (hinit'.imp fun _ _ h => h.1),
    hspan.trans hs, hlo,
    hhi, by rwa [hform]⟩

end

/-- A tree whose nodes have places in the source, each within the one above. -/
inductive Ast.Nested (src : Text) : Ast → Prop
  | node {s : Span} {k : Kind Ast} (hlo : Seam src s.lo) (hhi : Seam src s.hi) (hle : s.lo ≤ s.hi)
      (hfill : Fills Ast.span (·.kind.form) k.form s.lo s.hi k.children)
      (hchildren : ∀ c ∈ k.children, c.Nested src) :
      Nested src (.node (some s) k)

/-- What is below a nested tree is nested. -/
theorem Ast.Nested.sub {src : Text} {a b : Ast} (h : a.Nested src) (hsub : b.Sub a) :
    b.Nested src := by
  induction hsub using Relation.ReflTransGen.head_induction_on with
  | refl => exact h
  | head hmem _ ih =>
    cases ih with
    | node _ _ _ _ hchildren => exact hchildren _ hmem

namespace Read

open Ast

variable {src : Text}

/-- A node is nested around children that lie in order within its place. -/
theorem nested_placed {lo hi : Nat} {k : Kind Ast} (hlo : Seam src lo) (hhi : Seam src hi)
    (horder : InOrder Ast.span lo hi k.children) (hchildren : ∀ c ∈ k.children, c.Nested src) :
    (placed lo hi k).Nested src :=
  .node hlo hhi horder.le (.inl horder) hchildren

/-- A node without children is nested between two seams. -/
theorem nested_leaf {lo hi : Nat} {k : Kind Ast} (hlo : Seam src lo) (hhi : Seam src hi)
    (hle : lo ≤ hi) (hleaf : k.children = []) : (placed lo hi k).Nested src :=
  nested_placed hlo hhi (by rw [hleaf]; exact hle) (by simp [hleaf])

/-- A node is nested around one child within its place. -/
theorem nested_single {lo hi : Nat} {k : Kind Ast} {a : Ast} {s : Span} (hlo : Seam src lo)
    (hhi : Seam src hi) (hchild : k.children = [a]) (ha : a.Nested src) (hspan : a.span = some s)
    (hlo' : lo ≤ s.lo) (hle : s.lo ≤ s.hi) (hhi' : s.hi ≤ hi) : (placed lo hi k).Nested src :=
  nested_placed hlo hhi (by rw [hchild]; exact ⟨s, hspan, hlo', hle, hhi'⟩) (by simpa [hchild])

/-- Readers that place what they read within the range they are given. -/
structure Readers.Nests (src : Text) (r : Readers) : Prop where
  expression : ∀ {lo hi : Nat} {a : Ast}, Seam src lo → Rim src hi → lo ≤ hi →
    r.expression lo hi = .ok a →
      a.Nested src ∧ ∃ s, a.span = some s ∧ lo ≤ s.lo ∧ s.lo ≤ s.hi ∧ s.hi ≤ hi
  element : ∀ {lo hi : Nat} {found : Reading lo}, src[lo]? = some less → Rim src hi →
    r.element lo hi = .ok (some found) →
      found.ast.Nested src ∧ found.ast.span = some ⟨lo, found.stop⟩ ∧ found.stop ≤ hi

section Parts

variable {r : Readers} {lo hi : Nat}

/-- Opaque code lies in the range that it was cut from. -/
theorem nested_opaqueCode (hlo : Seam src lo) (hhi : Seam src hi) (hle : lo ≤ hi) :
    InOrder Ast.span lo hi (opaqueCode src lo hi) ∧
      ∀ a ∈ opaqueCode src lo hi, a.Nested src := by
  unfold opaqueCode
  split
  · refine ⟨⟨_, rfl, Nat.le_refl _, hle, Nat.le_refl _⟩, ?_⟩
    simpa using nested_leaf hlo hhi hle rfl
  · exact ⟨hle, by simp⟩

/-- The bytes of pieces with one byte before each but the first. -/
theorem length_join_cons (sep : Byte) (first : Text) (parts : List Text) :
    (Text.join [sep] (first :: parts)).length =
      first.length + (parts.map fun part => 1 + part.length).sum := by
  induction parts generalizing first with
  | nil => simp [Text.join]
  | cons part rest ih =>
    have hrest := ih part
    simp only [Text.join, List.intercalate] at hrest ⊢
    simp only [List.intersperse_cons_cons, List.flatten_cons, List.length_append, List.map_cons,
      List.sum_cons, hrest]
    simp only [List.length_cons, List.length_nil]
    omega

/-- A tag covers its text. -/
theorem nested_tagNode {tag : Text} (htag : tag <+: src.drop lo) (hlo : Seam src lo)
    (hascii : ∀ b ∈ tag, b.isAscii = true) :
    (tagNode lo tag).Nested src ∧ (tagNode lo tag).span = some ⟨lo, lo + tag.length⟩ := by
  have hseam {k : Nat} (hk : k ≤ tag.length) : Seam src (lo + k) := by
    have h := hlo.add_length ((List.take_prefix k tag).trans htag)
      fun b hb => hascii b (List.mem_of_mem_take hb)
    rwa [List.length_take, Nat.min_eq_left hk] at h
  -- Each further name wraps the tag so far, which ends where it did.
  have hfold (ps : List Text) : ∀ (a : Ast) (k : Nat), a.Nested src → a.span = some ⟨lo, lo + k⟩ →
      k + (ps.map fun p => 1 + p.length).sum ≤ tag.length →
      (ps.foldl (tagMember lo) (a, lo + k)).1.Nested src ∧
        (ps.foldl (tagMember lo) (a, lo + k)).1.span =
          some ⟨lo, lo + (k + (ps.map fun p => 1 + p.length).sum)⟩ := by
    induction ps with
    | nil => exact fun a k ha hspan _ => ⟨ha, hspan⟩
    | cons p rest ih =>
      intro a k ha hspan hlength
      rw [List.map_cons, List.sum_cons] at hlength ⊢
      have hstop : lo + k + 1 + p.length = lo + (k + (1 + p.length)) := by omega
      have hmember : (placed lo (lo + (k + (1 + p.length))) (.member a p)).Nested src :=
        nested_single hlo (hseam (by omega)) rfl ha hspan (Nat.le_refl lo) (Nat.le_add_right ..)
          (Nat.add_le_add_left (Nat.le_add_right ..) lo)
      have hrest := ih _ (k + (1 + p.length)) hmember rfl (by omega)
      rw [← hstop, Nat.add_assoc k] at hrest
      exact hrest
  have hpieces := Text.join_pieces dot tag
  unfold tagNode
  cases hcons : Text.pieces dot tag with
  | nil => exact absurd hcons (Text.pieces_ne_nil dot tag)
  | cons first properties =>
    rw [hcons] at hpieces
    have hlength := length_join_cons dot first properties
    rw [hpieces] at hlength
    rw [hlength]
    refine hfold properties _ first.length ?_ rfl (Nat.le_of_eq hlength.symm)
    exact nested_leaf hlo (hseam (by omega)) (Nat.le_add_right ..) rfl

/-- Expressions lie in order as the ranges do that they are read from. -/
theorem nested_expressions (hr : r.Nests src) {ranges : List Span} {as : List Ast}
    (horder : InOrder some lo hi ranges) (hseams : ∀ s ∈ ranges, Seam src s.lo ∧ Rim src s.hi)
    (h : r.expressions ranges = .ok as) :
    InOrder Ast.span lo hi as ∧ ∀ a ∈ as, a.Nested src := by
  have hread := mapM_eq_ok h
  clear h
  induction hread generalizing lo with
  | nil => exact ⟨horder, by simp⟩
  | cons ha _ ih =>
    obtain ⟨s, hs, hlo, hle, horder⟩ := horder
    obtain rfl := Option.some.inj hs
    obtain ⟨hseam, hseams⟩ := List.forall_mem_cons.mp hseams
    obtain ⟨hnested, s', hs', hlo', hle', hhi'⟩ := hr.expression hseam.1 hseam.2 hle ha
    obtain ⟨hmore, hall⟩ := ih horder hseams
    exact ⟨⟨s', hs', Nat.le_trans hlo hlo', hle', hmore.mono hhi' (Nat.le_refl _)⟩,
      List.forall_mem_cons.mpr ⟨hnested, hall⟩⟩

/-- A tagged template is nested from the tag to its last backtick. -/
theorem nested_taggedTemplate (hr : r.Nests src) {tag : Ast} {tick : Nat} {found : Reading tick}
    (hlo : Seam src lo) (hle : lo ≤ tick) (htag : tag.Nested src)
    (hspan : tag.span = some ⟨lo, tick⟩)
    (h : taggedTemplate r src tag lo tick = .ok found) :
    found.ast.Nested src ∧ found.ast.span = some ⟨lo, found.stop⟩ ∧
      found.ast.kind.form = .template := by
  obtain ⟨parts, holes, hparts, hholes, hstop, hast⟩ := taggedTemplate_eq_ok h
  obtain ⟨horder, hseam, -⟩ := Scan.seam_templateTail hparts
  obtain ⟨horder, hnested⟩ := nested_expressions hr horder (Scan.seam_holes hparts) hholes
  rw [hast, hstop]
  refine ⟨nested_placed hlo hseam ?_ (List.forall_mem_cons.mpr ⟨htag, hnested⟩), rfl, rfl⟩
  exact ⟨_, hspan, Nat.le_refl _, hle, horder.mono (Nat.le_succ _) (Nat.le_refl _)⟩

/-- Behind the blanks behind a seam there is a seam, and behind a semicolon as well. -/
theorem seam_blanks {stop : Nat} (h : Seam src stop) : Seam src
    (stop + ((src.slice stop hi).takeWhile fun b => b == space || b == tab).length) := by
  refine h.add_takeWhile (List.take_prefix ..) fun b hb => ?_
  simp only [Bool.or_eq_true, beq_iff_eq] at hb
  rcases hb with rfl | rfl <;> rfl

/-- Behind a semicolon there is a seam, if it stands behind one. -/
theorem seam_semicolon {stop : Nat} (h : Seam src stop) : Seam src
    (if (src.slice stop hi).head? = some semicolon then stop + 1 else stop) := by
  split
  case isTrue hmark =>
    obtain ⟨rest, hslice⟩ := List.head?_eq_some_iff.mp hmark
    exact .succ_of_isAscii (Scan.getElem?_of_slice_eq_cons hslice) rfl
  case isFalse => exact h

/-- A statement ends at a seam. -/
theorem seam_statementEnd {stop : Nat} (h : Seam src stop) :
    Seam src (statementEnd src stop hi) := by
  have hbreak {m : Nat} (h : Seam src m) : Seam src
      (if [carriageReturn, newline].isPrefixOf (src.drop m) then m + 2
        else if [newline].isPrefixOf (src.drop m) then m + 1 else m) := by
    split
    case isTrue hstarts =>
      exact h.add_length (List.isPrefixOf_iff_prefix.mp hstarts) (List.all_eq_true.mp (by decide))
    case isFalse =>
      split
      case isTrue hstarts =>
        exact h.add_length (List.isPrefixOf_iff_prefix.mp hstarts) (List.all_eq_true.mp (by decide))
      case isFalse => exact h
  unfold statementEnd
  exact hbreak (seam_semicolon (seam_blanks h))

/-- An import statement is nested from its first byte to its end. -/
theorem nested_importAt {found : Reading lo} (hlo : Seam src lo)
    (h : importAt src lo hi = some found) :
    found.ast.Nested src ∧ found.ast.span = some ⟨lo, found.stop⟩ ∧
      found.ast.kind.form = .importing := by
  obtain ⟨i, b, rest, n, decl, hdrop, hquote, hn, hstop, hast⟩ := importAt_eq_some h
  obtain ⟨m, rfl, hm⟩ := Scan.getElem?_stringTail hn
  have hseam : Seam src (lo + 6 + i + 1 + (m + 1)) := by
    apply Seam.succ_of_isAscii (b := b) _ (Byte.isAscii_of_isQuote hquote)
    rw [← (Scan.getElem?_of_drop_eq_cons hdrop).2, List.getElem?_drop] at hm
    exact hm
  rw [hast]
  exact ⟨nested_leaf hlo (hstop ▸ seam_statementEnd hseam) (Nat.le_of_lt found.advances) rfl, rfl,
    rfl⟩

/-- The tag of a template is a run of ASCII bytes up to the backtick. -/
theorem tagBefore_spec {flushed tick : Nat} {tag : Text} (h : tagBefore src flushed tick = some tag)
    (hle : flushed ≤ tick) (htick : tick ≤ src.length) :
    flushed ≤ tick - tag.length ∧ tick - tag.length + tag.length = tick ∧
      Seam src (tick - tag.length) ∧ tag <+: src.drop (tick - tag.length) ∧
        ∀ b ∈ tag, b.isAscii = true := by
  unfold tagBefore at h
  dsimp only at h
  split at h
  case isTrue hcond =>
    obtain rfl := Option.some.inj h
    set run :=
      ((src.slice flushed tick).reverse.takeWhile fun b => b.isIdentChar || b == dot).reverse
      with hrun
    have hsuffix : run <:+ src.slice flushed tick := by
      rw [← List.reverse_prefix, hrun, List.reverse_reverse]
      exact List.takeWhile_prefix _
    have hascii : ∀ b ∈ run, b.isAscii = true := by
      intro b hb
      rw [hrun, List.mem_reverse] at hb
      have hclass := List.all_eq_true.mp List.all_takeWhile b hb
      rw [Bool.or_eq_true, beq_iff_eq] at hclass
      rcases hclass with hident | rfl
      · exact Byte.isAscii_of_isIdentChar hident
      · rfl
    -- The run ends where the code that was looked back through does.
    obtain ⟨init, hinit⟩ := hsuffix
    have hlength : init.length + run.length = tick - flushed := by
      have h := congrArg List.length hinit
      rw [List.length_append, Text.slice, List.length_take, List.length_drop] at h
      omega
    have hlo : tick - run.length = flushed + init.length := by omega
    have hstarts : run <+: src.drop (tick - run.length) := by
      obtain ⟨more, hmore⟩ : src.slice flushed tick <+: src.drop flushed := List.take_prefix ..
      rw [← hinit, List.append_assoc] at hmore
      rw [hlo, ← List.drop_drop, ← hmore, List.drop_left]
      exact List.prefix_append ..
    refine ⟨by omega, by omega, ?_, hstarts, hascii⟩
    obtain ⟨b, rest, hrun⟩ := List.exists_cons_of_ne_nil (l := run) (by
      rintro hnil
      simp [hnil] at hcond)
    obtain ⟨more, hmore⟩ := hstarts
    have hb : src[tick - run.length]? = some b := by
      rw [← List.head?_drop, ← hmore, hrun]
      rfl
    exact .of_isAscii hb (hascii b (hrun ▸ List.mem_cons_self))
  case isFalse => exact absurd h (by simp)

/-- What is nested ends at a seam. -/
theorem seam_stop {a : Ast} {stop : Nat} (h : a.Nested src) (hspan : a.span = some ⟨lo, stop⟩) :
    Seam src stop := by
  cases h with
  | node _ hhi => 
    obtain rfl := Option.some.inj hspan
    exact hhi

/-- A seam is where an import statement begins. -/
theorem seam_of_importStarts {i : Nat} (h : importStarts src lo i = true) : Seam src i := by
  simp only [importStarts, Bool.and_eq_true] at h
  obtain ⟨rest, hrest⟩ := List.isPrefixOf_iff_prefix.mp h.1.1.1
  exact .of_isAscii (Scan.getElem?_of_drop_eq_cons hrest.symm).1 rfl

/-- Behind the code nothing is read. -/
theorem CodeTrace.eq_nil {flushed : Nat} {as : List Ast}
    (h : CodeTrace r src lo hi flushed flushed as)
    (hle : hi ≤ flushed) : as = [] := by
  cases h with
  | done => rw [opaqueCode, if_neg (Nat.not_lt.mpr hle)]
  | pass hlt | template hlt | importing hlt | element hlt =>
    exact absurd hlt (Nat.not_lt.mpr hle)

/-- The pieces of code lie one behind the other, and only the last may end behind the code. -/
theorem nested_codeFrom (hr : r.Nests src) {flushed i : Nat} {as : List Ast}
    (hflushed : Seam src flushed) (hhi : Rim src hi) (hle : flushed ≤ i) (hin : flushed ≤ hi)
    (h : codeFrom r src lo hi flushed i = .ok as) :
    Fills Ast.span (·.kind.form) .fragment flushed hi as ∧ ∀ a ∈ as, a.Nested src := by
  -- A piece found behind opaque code and before the rest.
  have hjoin {flushed mid stop : Nat} {found : Ast} {more : List Ast} (hflushed : Seam src flushed)
      (hmid : Seam src mid) (hle : flushed ≤ mid) (hlt : mid < hi) (hmidstop : mid ≤ stop)
      (hnested : found.Nested src) (hspan : found.span = some ⟨mid, stop⟩)
      (hover : hi < stop → more = [] ∧
        (found.kind.form = .template ∨ found.kind.form = .importing))
      (hmore : stop ≤ hi →
        Fills Ast.span (·.kind.form) .fragment stop hi more ∧ ∀ a ∈ more, a.Nested src) :
      Fills Ast.span (·.kind.form) .fragment flushed hi
        (opaqueCode src flushed mid ++ found :: more) ∧
        ∀ a ∈ opaqueCode src flushed mid ++ found :: more, a.Nested src := by
    obtain ⟨horder, hcode⟩ := nested_opaqueCode hflushed hmid hle
    rcases Nat.lt_or_ge hi stop with hlong | hfits
    · obtain ⟨rfl, hform⟩ := hover hlong
      exact ⟨.inr ⟨rfl, _, found, _, rfl, horder, hspan, hlt, hlong, hform⟩,
        List.forall_mem_append.mpr ⟨hcode, by simpa using hnested⟩⟩
    · obtain ⟨hfill, hall⟩ := hmore hfits
      have hfound : InOrder Ast.span mid stop [found] :=
        ⟨_, hspan, Nat.le_refl _, hmidstop, Nat.le_refl _⟩
      exact ⟨horder.fills (hfound.fills hfill),
        List.forall_mem_append.mpr ⟨hcode, List.forall_mem_cons.mpr ⟨hnested, hall⟩⟩⟩
  replace h := codeTrace h
  induction h with
  | done =>
    obtain ⟨horder, hnested⟩ := nested_opaqueCode hflushed hhi.seam hin
    exact ⟨.inl horder, hnested⟩
  | pass _ hj _ ih => exact ih hflushed (by omega) hin
  | @template flushed i tag found more hlt htick htag hfound hmore ih =>
    have hlength := (List.getElem?_eq_some_iff.mp htick).1
    obtain ⟨htagLo, hstop, hlo, hstarts, hascii⟩ := tagBefore_spec htag hle (by omega)
    obtain ⟨htagNested, htagSpan⟩ := nested_tagNode hstarts hlo hascii
    rw [hstop] at htagSpan
    obtain ⟨hnested, hspan, hform⟩ :=
      nested_taggedTemplate hr hlo (Nat.sub_le ..) htagNested htagSpan hfound
    have hadv := found.advances
    apply hjoin hflushed hlo htagLo (by omega) (by omega) hnested hspan
    · exact fun hover => ⟨hmore.eq_nil (Nat.le_of_lt hover), .inl hform⟩
    · exact fun hfits => ih (seam_stop hnested hspan) (Nat.le_refl _) hfits
  | @importing flushed i found more hlt hstarts hfound hmore ih =>
    have hseam := seam_of_importStarts hstarts
    obtain ⟨hnested, hspan, hform⟩ := nested_importAt hseam hfound
    apply hjoin hflushed hseam hle hlt (Nat.le_of_lt found.advances) hnested hspan
    · exact fun hover => ⟨hmore.eq_nil (Nat.le_of_lt hover), .inr hform⟩
    · exact fun hfits => ih (seam_stop hnested hspan) (Nat.le_refl _) hfits
  | @element flushed i found more hlt hless hmay hfound hmore ih =>
    obtain ⟨hnested, hspan, hstop⟩ := hr.element hless hhi hfound
    apply hjoin hflushed (.of_isAscii hless rfl) hle hlt (Nat.le_of_lt found.advances) hnested hspan
    · exact fun hover => absurd hstop (Nat.not_le.mpr hover)
    · exact fun hfits => ih (seam_stop hnested hspan) (Nat.le_refl _) hfits

/-- The expression in a container lies between the braces. -/
theorem nested_containerExpression (hr : r.Nests src) {expression : Option Ast}
    (hlo : Seam src lo) (hhi : Rim src hi) (hle : lo ≤ hi)
    (h : containerExpression r src lo hi = .ok expression) :
    InOrder Ast.span lo hi expression.toList ∧ ∀ a ∈ expression.toList, a.Nested src := by
  unfold containerExpression at h
  split at h
  · obtain rfl := pure_eq_ok.mp h
    exact ⟨hle, by simp⟩
  · obtain ⟨a, ha, rfl⟩ := map_eq_ok.mp h
    obtain ⟨hnested, s, hspan, horder⟩ := hr.expression hlo hhi hle ha
    exact ⟨⟨s, hspan, horder⟩, by simpa using hnested⟩

/-- A container lies from one brace to the other. -/
theorem nested_container (hr : r.Nests src) {n : Nat} {rest : Text} {expression : Option Ast}
    (hopen : src.drop lo = openBrace :: rest)
    (hclose : Scan.closeTail (.group closeBrace) [] rest = some n)
    (h : containerExpression r src (lo + 1) (lo + n) = .ok expression) :
    (placed lo (lo + n + 1) (.container expression)).Nested src := by
  obtain ⟨hb, hrest⟩ := Scan.getElem?_of_drop_eq_cons hopen
  obtain ⟨m, rfl, hm⟩ := Scan.getElem?_closeTail rfl hclose
  have hend : src[lo + (m + 1)]? = some closeBrace := by
    rw [← hrest, List.getElem?_drop] at hm
    rw [← Nat.add_assoc, Nat.add_right_comm]
    exact hm
  obtain ⟨horder, hnested⟩ := nested_containerExpression hr (.succ_of_isAscii hb rfl)
    (.inr ⟨_, hend, .inl rfl⟩) (by omega) h
  exact nested_placed (.of_isAscii hb rfl) (.succ_of_isAscii hend rfl)
    (horder.mono (Nat.le_succ lo) (Nat.le_succ _)) hnested

/-- An attribute is nested from its name to the end of its value. -/
theorem nested_attributeAt (hr : r.Nests src) {nameStop : Nat} {hlo : lo < nameStop}
    {found : Reading lo} (hseam : Seam src lo) (hname : Seam src nameStop) (hhi : Rim src hi)
    (h : attributeAt r src lo nameStop hi hlo = .ok (some found)) :
    found.ast.Nested src ∧ found.ast.span = some ⟨lo, found.stop⟩ := by
  -- The attribute ends where its value does.
  have hfinish {value : Ast} {s : Span} (hnested : value.Nested src) (hspan : value.span = some s)
      (hvalue : nameStop < s.lo) (hle : s.lo ≤ s.hi) :
      (placed lo s.hi (.attr (src.slice lo nameStop) (some value))).Nested src :=
    nested_single hseam (seam_stop hnested hspan) rfl hnested hspan (by omega) hle (Nat.le_refl _)
  cases attributeTrace h with
  | bare => exact ⟨nested_leaf hseam hname (Nat.le_of_lt hlo) rfl, rfl⟩
  | @quoted valueLo n b rest hvalue hvalueLo hslice hquote hfind =>
    have hascii := Byte.isAscii_of_isQuote hquote
    obtain ⟨hlt, hend, -⟩ := List.findIdx?_eq_some_iff_getElem.mp hfind
    have hn : (src.slice valueLo hi)[n + 1]? = some b := by
      rw [hslice, List.getElem?_cons_succ, List.getElem?_eq_getElem hlt]
      simpa using hend
    have hstop := Seam.succ_of_isAscii (Scan.getElem?_of_getElem?_slice hn).1 hascii
    have hstr := nested_leaf (k := .str (rest.take n) (Char.ofNat b.toNat))
      (.of_isAscii (Scan.getElem?_of_slice_eq_cons hslice) hascii) hstop (by omega) rfl
    exact ⟨hfinish hstr rfl hvalue (Nat.le_add_right _ (n + 2)), rfl⟩
  | @braced valueLo n expression hvalue hvalueLo hbrace hclose hlt hexpression =>
    have hcontainer :=
      nested_container hr (Scan.drop_eq_cons_of_getElem? hbrace) hclose hexpression
    exact ⟨hfinish hcontainer rfl hvalue (Nat.le_add_right _ (n + 1)), rfl⟩
  | @element valueLo value hvalue hvalueLo hless hread =>
    obtain ⟨hnested, hspan, -⟩ := hr.element hless hhi hread
    exact ⟨hfinish hnested hspan hvalue (Nat.le_of_lt value.advances), rfl⟩

/-- What is left of an opening tag, in place. -/
structure TagTail.Nests (src : Text) (hi : Nat) {pos : Nat} (t : TagTail pos) : Prop where
  order : InOrder Ast.span pos t.stop t.attributes
  nested : ∀ a ∈ t.attributes, a.Nested src
  seam : Seam src t.stop
  stop_le : t.stop ≤ hi

/-- One more attribute in front of what is left of a tag. -/
theorem TagTail.Nests.cons {pos pos' : Nat} {t : TagTail pos} (h : t.Nests src hi) {attr : Ast}
    (hspan : attr.span = some ⟨lo, pos⟩) (hlo : pos' ≤ lo) (hle : lo ≤ pos)
    (hattr : attr.Nested src) (hpos : pos' ≤ pos) : (t.cons attr hpos).Nests src hi :=
  ⟨⟨_, hspan, hlo, hle, h.order⟩, List.forall_mem_cons.mpr ⟨hattr, h.nested⟩, h.seam, h.stop_le⟩

/-- The attributes of a tag lie in order up to where the tag ends. -/
theorem nested_tagTail (hr : r.Nests src) {pos : Nat} {tail : TagTail pos} (hpos : Seam src pos)
    (hhi : Rim src hi) (h : tagTail r src hi pos = .ok (some tail)) : tail.Nests src hi := by
  replace h := tagTrace h
  induction h with
  | @selfClosing pos here rest hadv hhere hlt hdrop =>
    have hrest := (Scan.getElem?_of_drop_eq_cons hdrop).2
    have hgreater := (Scan.getElem?_of_drop_eq_cons hrest).1
    -- The range does not end between the slash and the `>`.
    have hrim : here + 1 ≠ hi := by
      intro hend
      rcases hhi with hlength | ⟨c, hc, hclass⟩
      · simp [hend, hlength] at hgreater
      · rw [← hend, hgreater] at hc
        obtain rfl := Option.some.inj hc
        simp +decide at hclass
    exact ⟨Nat.le_of_lt hadv, by simp, .succ_of_isAscii hgreater rfl,
      Nat.lt_of_le_of_ne hlt hrim⟩
  | closing hadv _ hlt hdrop =>
    exact ⟨Nat.le_of_lt hadv, by simp,
      .succ_of_isAscii (Scan.getElem?_of_drop_eq_cons hdrop).1 rfl, hlt⟩
  | @spread pos here n inner rest argument tail hle hhere hdrop hclose hlt hinner hdots hargument
      _ ih =>
    have hpos : pos ≤ here := hhere ▸ Scan.le_skipSpace ..
    have hbrace := (Scan.getElem?_of_drop_eq_cons hdrop).1
    obtain ⟨hrim, hstop⟩ := Scan.rim_close hdrop hclose rfl
    have hstarts := List.isPrefixOf_iff_prefix.mp hdots
    have hinner' : here + 1 ≤ inner := hinner ▸ Scan.le_skipSpace ..
    have hspace : Seam src inner := hinner ▸ (Seam.succ_of_isAscii hbrace rfl).skipSpace
    have hseam : Seam src (inner + 3) :=
      hspace.add_length (hstarts.trans (List.take_prefix ..)) (List.all_eq_true.mp (by decide))
    have hargumentLe : inner + 3 ≤ here + n := by
      have hlength := hstarts.length_le
      simp only [Text.slice, List.length_take, List.length_cons, List.length_nil] at hlength
      omega
    obtain ⟨hnested, s, hs, hlo, hle', hhi'⟩ := hr.expression hseam hrim hargumentLe hargument
    have hspread : (placed here (here + n + 1) (.spread argument)).Nested src :=
      nested_single (.of_isAscii hbrace rfl) hstop rfl hnested hs (by omega) hle' (by omega)
    exact (ih hstop).cons rfl hpos (by omega) hspread hle
  | @attr pos here nameStop b rest hname found tail hle hhere hlt hdrop hident hnameStop hattr
      _ ih =>
    have hpos : pos ≤ here := hhere ▸ Scan.le_skipSpace ..
    obtain ⟨hb, hrest⟩ := Scan.getElem?_of_drop_eq_cons hdrop
    have hascii := Byte.isAscii_of_isIdentChar (Byte.isIdentChar_of_isIdentStart hident)
    have hseam : Seam src nameStop := by
      rw [hnameStop]
      exact (Seam.succ_of_isAscii hb hascii).add_takeWhile ⟨[], by rw [hrest, List.append_nil]⟩
        fun _ => Byte.isAscii_of_isNameChar
    obtain ⟨hnested, hspan⟩ := nested_attributeAt hr (.of_isAscii hb hascii) hseam hhi hattr
    exact (ih (seam_stop hnested hspan)).cons hspan hpos (Nat.le_of_lt found.advances) hnested hle

/-- What stands behind an opening tag, in place. -/
structure Content.Nests (src : Text) (hi : Nat) {pos : Nat} (c : Content pos) : Prop where
  order : InOrder Ast.span pos c.stop c.children
  nested : ∀ a ∈ c.children, a.Nested src
  seam : Seam src c.stop
  stop_le : c.stop ≤ hi

/-- One more child in front of what stands behind a tag. -/
theorem Content.Nests.cons {pos pos' : Nat} {c : Content pos} (h : c.Nests src hi) {child : Ast}
    (hspan : child.span = some ⟨pos', pos⟩) (hchild : child.Nested src) (hpos : pos' ≤ pos) :
    (c.cons child hpos).Nests src hi :=
  ⟨⟨_, hspan, Nat.le_refl _, hpos, h.order⟩, List.forall_mem_cons.mpr ⟨hchild, h.nested⟩, h.seam,
    h.stop_le⟩

/-- Behind a closing tag there is a seam. -/
theorem nested_closingTag {name : Text} {pos : Nat} {inner : Content pos}
    (h : closingTag src name hi pos = .ok inner) : inner.Nests src hi := by
  obtain ⟨close, hhead, hstop, hchildren, -⟩ := closingTag_eq_ok h
  rw [List.head?_eq_getElem?] at hhead
  obtain ⟨hgreater, hlt⟩ := Scan.getElem?_of_getElem?_slice hhead
  refine ⟨?_, by simp [hchildren], hstop ▸ .succ_of_isAscii hgreater rfl, hstop ▸ hlt⟩
  rw [hchildren]
  exact Nat.le_of_lt inner.advances

/-- The text between the children of an element ends before a child or with the range. -/
theorem seam_textStop {pos : Nat} (hlt : pos < hi) (hhi : Seam src hi) : Seam src
    (pos + 1 +
      ((src.slice (pos + 1) hi).takeWhile fun b => b != less && b != openBrace).length) := by
  rcases Scan.stop_takeWhile (p := fun b => b != less && b != openBrace)
      (Nat.succ_le_of_lt hlt) hhi.le with hend | ⟨c, hc, hclass⟩
  · rw [show _ = hi from hend]
    exact hhi
  · refine .of_isAscii hc ?_
    simp only [Bool.and_eq_false_iff, bne_eq_false_iff_eq] at hclass
    rcases hclass with rfl | rfl <;> rfl

/-- The children of an element lie in order up to its closing tag. -/
theorem nested_content (hr : r.Nests src) {name : Text} {pos : Nat} {inner : Content pos}
    (hpos : Seam src pos) (hhi : Rim src hi) (h : content r src name lo hi pos = .ok inner) :
    inner.Nests src hi := by
  replace h := contentTrace h
  induction h with
  | closing _ hinner => exact nested_closingTag hinner
  | child hle hless hfound _ ih =>
    obtain ⟨hnested, hspan, -⟩ := hr.element hless hhi hfound
    exact (ih (seam_stop hnested hspan)).cons hspan hnested hle
  | container hle hdrop hclose _ hexpression _ ih =>
    have hnested := nested_container hr hdrop hclose hexpression
    exact (ih (Scan.rim_close hdrop hclose rfl).2).cons rfl hnested hle
  | @text pos stop more hle hlt hstop _ ih =>
    have hseam : Seam src stop := hstop ▸ seam_textStop hlt hhi.seam
    exact (ih hseam).cons rfl (nested_leaf hpos hseam hle rfl) hle

/-- An element is nested from its first byte to its last, within the range that it is read in. -/
theorem nested_element (hr : r.Nests src) {found : Reading lo} (hless : src[lo]? = some less)
    (hhi : Rim src hi) (h : element r src lo hi = .ok (some found)) :
    found.ast.Nested src ∧ found.ast.span = some ⟨lo, found.stop⟩ ∧ found.stop ≤ hi := by
  have hlo : Seam src lo := .of_isAscii hless rfl
  have hname : Seam src (Scan.nameEnd src (lo + 1)) := (Seam.succ_of_isAscii hless rfl).nameEnd
  have hname' : lo + 1 ≤ Scan.nameEnd src (lo + 1) := Scan.le_nameEnd ..
  have hopening {tag : TagTail (Scan.nameEnd src (lo + 1))}
      (htag : tagTail r src hi (Scan.nameEnd src (lo + 1)) = .ok (some tag)) :
      lo ≤ tag.stop ∧ tag.Nests src hi ∧ (placed lo tag.stop
        (.opening (src.slice (lo + 1) (Scan.nameEnd src (lo + 1))) tag.attributes
          tag.selfClosing)).Nested src := by
    have hattributes := nested_tagTail hr hname hhi htag
    have hadv := tag.advances
    exact ⟨by omega, hattributes, nested_placed hlo hattributes.seam
      (hattributes.order.mono (by omega) (Nat.le_refl _)) hattributes.nested⟩
  cases elementTrace h with
  | alone _ htag =>
    obtain ⟨hle, hattributes, htagNested⟩ := hopening htag
    refine ⟨?_, rfl, hattributes.stop_le⟩
    exact nested_single hlo hattributes.seam rfl htagNested rfl (Nat.le_refl _) hle (Nat.le_refl _)
  | around _ _ htag hinner =>
    obtain ⟨hle, hattributes, htagNested⟩ := hopening htag
    have hcontent := nested_content hr hattributes.seam hhi hinner
    refine ⟨?_, rfl, hcontent.stop_le⟩
    exact nested_placed hlo hcontent.seam ⟨_, rfl, Nat.le_refl _, hle, hcontent.order⟩
      (List.forall_mem_cons.mpr ⟨htagNested, hcontent.nested⟩)

/-- An operand and what is chained to it end where the chain does. -/
theorem nested_chain (hr : r.Nests src) {operand : Ast} {pos : Nat} {found : Reading lo}
    (hlo : Seam src lo) (hoperand : operand.Nested src) (hspan : operand.span = some ⟨lo, pos⟩)
    (h : ChainTrace r src lo hi operand pos found) :
    found.ast.Nested src ∧ found.ast.span = some ⟨lo, found.stop⟩ := by
  induction h with
  | done => exact ⟨hoperand, hspan⟩
  | @member operand pos n rest found hpos hdrop hn _ ih =>
    obtain ⟨hb, hrest⟩ := Scan.getElem?_of_drop_eq_cons hdrop
    have hstop : Seam src (pos + 1 + n) := by
      have h := (Seam.succ_of_isAscii hb rfl).identEnd
      rwa [hrest, ← hn] at h
    exact ih (nested_single hlo hstop rfl hoperand hspan (Nat.le_refl _) (Nat.le_of_lt hpos)
      (by show pos ≤ pos + 1 + n; omega)) rfl
  | call hpos hdrop hclose _ hranges harguments _ ih =>
    have hparen := (Scan.getElem?_of_drop_eq_cons hdrop).1
    obtain ⟨hrim, hstop⟩ := Scan.rim_close hdrop hclose rfl
    have hopen := (Scan.closeTail_bounds hclose).1
    obtain ⟨horder, hall⟩ := nested_expressions hr
      (Scan.inOrder_segmentsFrom hranges (Nat.le_refl _) (by omega))
      (Scan.seam_segmentsFrom hranges (.succ_of_isAscii hparen rfl) hrim) harguments
    refine ih (nested_placed hlo hstop ?_ (List.forall_mem_cons.mpr ⟨hoperand, hall⟩)) rfl
    exact ⟨_, hspan, Nat.le_refl _, Nat.le_of_lt hpos, horder.mono (Nat.le_succ _) (Nat.le_succ _)⟩
  | template hpos _ htagged _ ih =>
    obtain ⟨hnested, hspan', -⟩ :=
      nested_taggedTemplate hr hlo (Nat.le_of_lt hpos) hoperand hspan htagged
    exact ih hnested hspan'

/-- An operand is nested from its first byte to its end. -/
theorem nested_operand (hr : r.Nests src) {found : Reading lo} (hlo : Seam src lo)
    (hhi : Rim src hi)
    (h : operand r src lo hi = .ok (some found)) :
    found.ast.Nested src ∧ found.ast.span = some ⟨lo, found.stop⟩ := by
  cases operandTrace h with
  | string hdrop hquote htail _ htrace =>
    refine nested_chain hr hlo ?_ rfl htrace
    obtain ⟨m, rfl, hm⟩ := Scan.getElem?_stringTail htail
    rw [← (Scan.getElem?_of_drop_eq_cons hdrop).2, List.getElem?_drop] at hm
    exact nested_leaf hlo (.succ_of_isAscii hm (Byte.isAscii_of_isQuote hquote)) (by omega) rfl
  | array hdrop hclose _ hranges helements htrace =>
    refine nested_chain hr hlo ?_ rfl htrace
    have hbracket := (Scan.getElem?_of_drop_eq_cons hdrop).1
    obtain ⟨hrim, hstop⟩ := Scan.rim_close hdrop hclose rfl
    have hopen := (Scan.closeTail_bounds hclose).1
    obtain ⟨horder, hall⟩ := nested_expressions hr
      (Scan.inOrder_segmentsFrom hranges (Nat.le_refl _) (by omega))
      (Scan.seam_segmentsFrom hranges (.succ_of_isAscii hbracket rfl) hrim) helements
    exact nested_placed hlo hstop (horder.mono (Nat.le_succ _) (Nat.le_succ _)) hall
  | element hless hfound =>
    obtain ⟨hnested, hspan, -⟩ := hr.element hless hhi hfound
    exact ⟨hnested, hspan⟩
  | ident hdrop hident hstop htrace =>
    refine nested_chain hr hlo ?_ rfl htrace
    obtain ⟨hb, hrest⟩ := Scan.getElem?_of_drop_eq_cons hdrop
    have hascii := Byte.isAscii_of_isIdentChar (Byte.isIdentChar_of_isIdentStart hident)
    have hseam := (Seam.succ_of_isAscii hb hascii).add_takeWhile (p := Byte.isIdentChar)
      ⟨[], by rw [hrest, List.append_nil]⟩ fun _ => Byte.isAscii_of_isIdentChar
    exact nested_leaf hlo (hstop ▸ hseam) (by omega) rfl

/-- White space within a range ends within it. -/
theorem skipSpace_le (h : lo ≤ hi) : Scan.skipSpace src lo hi ≤ hi := by
  have hlength := (List.takeWhile_sublist Byte.isSpace (l := src.slice lo hi)).length_le
  have hslice : (src.slice lo hi).length ≤ hi - lo := List.length_take_le ..
  unfold Scan.skipSpace
  omega

/-- A range without the white space at its ends. -/
theorem shrink_spec (hlo : Seam src lo) (hhi : Rim src hi) (hle : lo ≤ hi) :
    lo ≤ (shrink src lo hi).lo ∧ (shrink src lo hi).lo ≤ (shrink src lo hi).hi ∧
      (shrink src lo hi).hi ≤ hi ∧ Seam src (shrink src lo hi).lo ∧
        Rim src (shrink src lo hi).hi := by
  have hstart : lo ≤ Scan.skipSpace src lo hi := Scan.le_skipSpace ..
  have hstart' : Scan.skipSpace src lo hi ≤ hi := skipSpace_le hle
  have hseam : Seam src (Scan.skipSpace src lo hi) := hlo.skipSpace
  unfold shrink
  dsimp only
  generalize Scan.skipSpace src lo hi = start at *
  have hlength : (src.slice start hi).length = hi - start := by
    rw [Text.slice, List.length_take, List.length_drop]
    have := hhi.seam.le
    omega
  -- The range is what is kept, followed by the white space that is dropped.
  have hsplit :
      src.slice start hi = ((src.slice start hi).reverse.dropWhile Byte.isSpace).reverse ++
      ((src.slice start hi).reverse.takeWhile Byte.isSpace).reverse := by
    rw [← List.reverse_append, List.takeWhile_append_dropWhile, List.reverse_reverse]
  have hspaces : ∀ b ∈ (src.slice start hi).reverse.takeWhile Byte.isSpace, b.isSpace = true :=
    List.all_eq_true.mp List.all_takeWhile
  generalize (src.slice start hi).reverse.dropWhile Byte.isSpace = kept at *
  generalize (src.slice start hi).reverse.takeWhile Byte.isSpace = dropped at *
  have hsum := congrArg List.length hsplit
  rw [List.length_append, List.length_reverse, List.length_reverse, hlength] at hsum
  refine ⟨hstart, Nat.le_add_right .., by omega, hseam, ?_⟩
  rcases List.eq_nil_or_concat dropped with rfl | ⟨init, b, rfl⟩
  · rw [List.length_nil] at hsum
    rwa [show start + kept.length = hi by omega]
  · have hb : (src.slice start hi)[kept.length]? = some b := by
      have hlength : kept.length = kept.reverse.length := List.length_reverse.symm
      rw [hsplit, List.concat_eq_append, List.reverse_append, hlength,
        List.getElem?_append_right (Nat.le_refl _), Nat.sub_self]
      rfl
    exact .inr ⟨b, (Scan.getElem?_of_getElem?_slice hb).1, .inr (.inr (hspaces b (by simp)))⟩

/-- An expression is nested within the range that it is read from. -/
theorem nested_expression (hr : r.Nests src) {a : Ast} (hlo : Seam src lo) (hhi : Rim src hi)
    (hle : lo ≤ hi) (h : expression r src lo hi = .ok a) :
    a.Nested src ∧ ∃ s, a.span = some s ∧ lo ≤ s.lo ∧ s.lo ≤ s.hi ∧ s.hi ≤ hi := by
  obtain ⟨hlo', hle', hhi', hseam, hrim⟩ := shrink_spec hlo hhi hle
  cases expressionTrace h with
  | blank => exact ⟨nested_leaf hlo hhi.seam hle rfl, _, rfl, Nat.le_refl _, hle, Nat.le_refl _⟩
  | @operand found hfound hfills =>
    obtain ⟨hnested, hspan⟩ := nested_operand hr hseam hrim hfound
    have hstop := Scan.le_skipSpace src found.stop (shrink src lo hi).hi
    exact ⟨hnested, _, hspan, hlo', Nat.le_of_lt found.advances, by show found.stop ≤ hi; omega⟩
  | code hparts =>
    obtain ⟨hfill, hall⟩ := nested_codeFrom hr hseam hrim (Nat.le_refl _) hle' hparts
    exact ⟨.node hseam hrim.seam hle' hfill hall, _, rfl, hlo', hle', hhi'⟩

end Parts

/-- The readers of every depth read nested trees. -/
theorem nests_readers (src : Text) (depth : Nat) : (readers src depth).Nests src := by
  induction depth with
  | zero =>
    exact ⟨fun _ _ _ h => absurd h (by simp [readers]), fun _ _ h => absurd h (by simp [readers])⟩
  | succ depth ih =>
    have hbelow :
        Readers.Nests src ⟨(readers src depth).expression, element (readers src depth) src⟩ :=
      ⟨ih.expression, fun hless hhi h => nested_element ih hless hhi h⟩
    exact ⟨fun hlo hhi hle h => nested_expression hbelow hlo hhi hle h,
      fun hless hhi h => nested_element ih hless hhi h⟩

/-- The nodes of a module lie one behind the other from its beginning to its end. -/
theorem nested_program {body : List Ast} (h : program src = .ok body) :
    InOrder Ast.span 0 src.length body ∧ ∀ a ∈ body, a.Nested src := by
  obtain ⟨hfill, hall⟩ := nested_codeFrom (nests_readers src _) (.zero src) (.inl rfl)
    (Nat.le_refl _) (Nat.zero_le _) h
  refine ⟨hfill.resolve_right ?_, hall⟩
  rintro ⟨-, init, last, s, rfl, -, hspan, -, hover, -⟩
  have hstop := (seam_stop (hall last (by simp)) hspan).le
  omega

end Read

end JsxStyle
