import JsxStyle.Proofs.Shape

/-!
# The pieces of a module cover it

What is read of a module covers it without gap or overlap: the nodes of the
program lie one behind the other from the beginning to the end, and so do, within
an element that stands in the module or in such an element, its opening tag, its
children and its closing tag.  Inside expressions nothing of the kind is said,
where white space around a part belongs to none.

* `Ast.Tiled`: elements whose parts cover them;
* `Read.covers_readers`: what is read as an element, up to its last `>`;
* `Read.tiles_program`: the nodes of a module.
-/

namespace JsxStyle

/-- The places of trees that lie one behind the other, from `lo` to `hi`. -/
inductive Tiles : Nat → Nat → List Ast → Prop
  | nil (lo : Nat) : Tiles lo lo []
  | cons {lo mid hi : Nat} {a : Ast} {rest : List Ast} (hspan : a.span = some ⟨lo, mid⟩)
      (hle : lo ≤ mid) (htail : Tiles mid hi rest) : Tiles lo hi (a :: rest)

namespace Tiles

variable {lo mid hi : Nat} {as bs : List Ast}

/-- Tiles lie in order between their two ends. -/
theorem le (h : Tiles lo hi as) : lo ≤ hi := by
  induction h with
  | nil => exact Nat.le_refl _
  | cons _ hle _ ih => exact Nat.le_trans hle ih

/-- Tiles of one range and of the next are tiles of both together. -/
theorem append (h : Tiles lo mid as) (h' : Tiles mid hi bs) : Tiles lo hi (as ++ bs) := by
  induction h with
  | nil => exact h'
  | cons hspan hle _ ih => exact .cons hspan hle (ih h')

end Tiles

/-- A tree in the code of a module: if it is an element, its opening tag, its
children and its closing tag cover its place, and the children are such trees. -/
inductive Ast.Tiled (src : Text) : Ast → Prop
  | element {lo mid stop hi : Nat} {opening : Ast} {children : List Ast} {closing : Option Text}
      (hform : opening.kind.form = .opening) (hopening : opening.span = some ⟨lo, mid⟩)
      (hle : lo ≤ mid) (htiles : Tiles mid stop children) (hstop : stop ≤ hi)
      (hclosing : closing.getD [] = src.slice stop hi) (hchildren : ∀ c ∈ children, c.Tiled src) :
      Tiled src (placed lo hi (.element opening children closing))
  | other {a : Ast} (helement : a.kind.form ≠ .element) (hprogram : a.kind.form ≠ .program) :
      Tiled src a

/-- A node that is neither an element nor a program asks for no tiles. -/
theorem Ast.Tiled.of_placed {src : Text} {lo hi : Nat} {k : Kind Ast} (helement : k.form ≠ .element)
    (hprogram : k.form ≠ .program) : (placed lo hi k).Tiled src :=
  .other helement hprogram

namespace Read

open Ascii Ast

variable {r : Readers} {src : Text}

/-- The reader of elements reads trees that cover the text from where they begin to
behind a `>`. -/
def Readers.Covers (r : Readers) (src : Text) : Prop :=
  ∀ {lo hi : Nat} {found : Reading lo}, r.element lo hi = .ok (some found) →
    found.ast.Tiled src ∧ found.ast.span = some ⟨lo, found.stop⟩ ∧
      src[found.stop - 1]? = some greater

/-- Where a byte stands, the text is that long and what follows. -/
theorem lt_length_of_drop_eq_cons {pos : Nat} {b : Byte} {rest : Text}
    (h : src.drop pos = b :: rest) : pos + rest.length + 1 = src.length := by
  have hlength := congrArg List.length h
  rw [List.length_drop, List.length_cons] at hlength
  omega

/-- What ends behind a byte of the text ends in the text. -/
theorem stop_le_of_getElem? {stop : Nat} {b : Byte} (h : src[stop - 1]? = some b) :
    stop ≤ src.length := by
  have hlt := (List.getElem?_eq_some_iff.mp h).1
  omega

/-- An opening tag ends with `>`. -/
theorem greater_of_tagTail {hi pos : Nat} {tail : TagTail pos}
    (h : tagTail r src hi pos = .ok (some tail)) : src[tail.stop - 1]? = some greater := by
  replace h := tagTrace h
  induction h with
  | selfClosing _ _ _ hdrop =>
    have hrest := (Scan.getElem?_of_drop_eq_cons hdrop).2
    exact (Scan.getElem?_of_drop_eq_cons hrest).1
  | closing _ _ _ hdrop => exact (Scan.getElem?_of_drop_eq_cons hdrop).1
  | spread _ _ _ _ _ _ _ _ _ ih | attr _ _ _ _ _ _ _ _ ih => exact ih

/-- Children and a closing tag that cover the text from `pos` on. -/
structure Content.Covers (src : Text) {pos : Nat} (c : Content pos) : Prop where
  tiles : ∃ stop, Tiles pos stop c.children ∧ stop ≤ c.stop ∧ c.closing = src.slice stop c.stop
  ends : src[c.stop - 1]? = some greater
  tiled : ∀ a ∈ c.children, a.Tiled src

/-- Content that covers its range does so with a child put before it. -/
theorem Content.Covers.cons {pos pos' : Nat} {c : Content pos} (h : c.Covers src) {child : Ast}
    (hspan : child.span = some ⟨pos', pos⟩) (hle : pos' ≤ pos) (hchild : child.Tiled src) :
    (c.cons child hle).Covers src := by
  obtain ⟨stop, htiles, hstop, hclosing⟩ := h.tiles
  exact ⟨⟨stop, .cons hspan hle htiles, hstop, hclosing⟩, h.ends,
    List.forall_mem_cons.mpr ⟨hchild, h.tiled⟩⟩

/-- The first byte of a slice is the byte where it begins. -/
theorem getElem?_of_head?_slice {lo hi : Nat} {b : Byte} (h : (src.slice lo hi).head? = some b) :
    src[lo]? = some b := by
  rw [Text.slice, List.head?_take] at h
  split at h
  · exact absurd h (by simp)
  · rwa [List.head?_drop] at h

/-- A closing tag ends content that covers its range. -/
theorem covers_closingTag {name : Text} {hi pos : Nat} {inner : Content pos}
    (h : closingTag src name hi pos = .ok inner) : inner.Covers src := by
  obtain ⟨close, hgreater, hstop, hchildren, hclosing⟩ := closingTag_eq_ok h
  refine ⟨⟨pos, hchildren ▸ .nil pos, Nat.le_of_lt inner.advances, hstop ▸ hclosing⟩, ?_, ?_⟩
  · rw [hstop]
    exact getElem?_of_head?_slice hgreater
  · simp [hchildren]

/-- Children and closing tag cover what is behind an opening tag. -/
theorem covers_content (hr : r.Covers src) {name : Text} {lo hi pos : Nat} {inner : Content pos}
    (h : content r src name lo hi pos = .ok inner) : inner.Covers src := by
  replace h := contentTrace h
  induction h with
  | closing _ hinner => exact covers_closingTag hinner
  | child hle _ hfound _ ih => exact ih.cons (hr hfound).2.1 hle (hr hfound).1
  | container hle _ _ _ _ _ ih | text hle _ _ _ ih =>
    exact ih.cons rfl hle (.of_placed (by simp [Kind.form]) (by simp [Kind.form]))

/-- An element covers the text from where it begins. -/
theorem covers_element (hr : r.Covers src) {lo hi : Nat} {found : Reading lo}
    (h : element r src lo hi = .ok (some found)) :
    found.ast.Tiled src ∧ found.ast.span = some ⟨lo, found.stop⟩ ∧
      src[found.stop - 1]? = some greater := by
  have hadv (tag : TagTail (Scan.nameEnd src (lo + 1))) : lo ≤ tag.stop := by
    have hname : lo + 1 ≤ Scan.nameEnd src (lo + 1) := Scan.le_nameEnd ..
    have htail := tag.advances
    omega
  cases elementTrace h with
  | @alone tag _ htag hclosing =>
    refine ⟨.element rfl rfl (hadv tag) (.nil _) (Nat.le_refl _) ?_ (by simp), rfl,
      greater_of_tagTail htag⟩
    rw [Text.slice_self]
    rfl
  | @around tag inner _ _ htag hinner =>
    have hcovers := covers_content hr hinner
    obtain ⟨stop, htiles, hle, hclosing⟩ := hcovers.tiles
    exact ⟨.element rfl rfl (hadv tag) htiles hle hclosing hcovers.tiled, rfl, hcovers.ends⟩

/-- The readers of every depth cover what they read. -/
theorem covers_readers (src : Text) (depth : Nat) : (readers src depth).Covers src := by
  induction depth with
  | zero => exact fun h => absurd h (by simp [readers])
  | succ depth ih => exact fun h => covers_element ih h

/-- Opaque code covers what it was cut from. -/
theorem tiles_opaqueCode {lo hi : Nat} (h : lo ≤ hi) : Tiles lo hi (opaqueCode src lo hi) := by
  unfold opaqueCode
  split
  · exact .cons rfl h (.nil hi)
  · obtain rfl : lo = hi := by omega
    exact .nil lo

/-- Opaque code is tiled. -/
theorem tiled_opaqueCode (lo hi : Nat) : ∀ a ∈ opaqueCode src lo hi, a.Tiled src := by
  intro a ha
  obtain ⟨-, rfl⟩ := eq_of_mem_opaqueCode ha
  exact .of_placed (by simp [Kind.form]) (by simp [Kind.form])

/-- A tagged template is tiled and lies in the text from its tag to its end. -/
theorem covers_taggedTemplate {tag : Ast} {lo tick : Nat} {found : Reading tick}
    (htick : tick < src.length) (h : taggedTemplate r src tag lo tick = .ok found) :
    found.ast.Tiled src ∧ found.ast.span = some ⟨lo, found.stop⟩ ∧ found.stop ≤ src.length := by
  obtain ⟨parts, holes, hparts, -, hstop, hast⟩ := taggedTemplate_eq_ok h
  have hbounds := (Scan.templateTail_bounds hparts).2.1
  rw [List.length_drop] at hbounds
  rw [hast, hstop]
  exact ⟨.of_placed (by simp [Kind.form]) (by simp [Kind.form]), rfl, by omega⟩

/-- A statement ends inside the text. -/
theorem statementEnd_le {stop hi : Nat} (hstop : stop ≤ src.length) :
    statementEnd src stop hi ≤ src.length := by
  have hbreak (m : Nat) (h : m ≤ src.length) :
      (if [carriageReturn, newline].isPrefixOf (src.drop m) then m + 2
        else if [newline].isPrefixOf (src.drop m) then m + 1 else m) ≤ src.length := by
    have hlength : (src.drop m).length = src.length - m := List.length_drop
    split
    case isTrue hbreak =>
      have hle := (List.isPrefixOf_iff_prefix.mp hbreak).length_le
      simp only [List.length_cons, List.length_nil] at hle
      omega
    case isFalse =>
      split
      case isTrue hbreak =>
        have hle := (List.isPrefixOf_iff_prefix.mp hbreak).length_le
        simp only [List.length_cons, List.length_nil] at hle
        omega
      case isFalse => exact h
  unfold statementEnd
  refine hbreak _ ?_
  split
  case isTrue hmark => exact (List.getElem?_eq_some_iff.mp (getElem?_of_head?_slice hmark)).1
  case isFalse =>
    have hle := (List.takeWhile_sublist (fun b => b == space || b == tab)
      (l := src.slice stop hi)).length_le
    have hslice : (src.slice stop hi).length ≤ src.length - stop := by
      rw [Text.slice, List.length_take, List.length_drop]
      exact Nat.min_le_right ..
    omega

/-- An import declaration is tiled and lies in the text. -/
theorem covers_importAt {lo hi : Nat} {found : Reading lo} (h : importAt src lo hi = some found) :
    found.ast.Tiled src ∧ found.ast.span = some ⟨lo, found.stop⟩ ∧ found.stop ≤ src.length := by
  obtain ⟨i, b, rest, n, decl, hdrop, -, hn, hstop, hast⟩ := importAt_eq_some h
  have hlength := lt_length_of_drop_eq_cons hdrop
  have hbounds := Scan.stringTail_bounds hn
  rw [hast, hstop]
  exact ⟨.of_placed (by simp [Kind.form]) (by simp [Kind.form]), rfl,
    statementEnd_le (by omega)⟩

/-- A tag lies between the code that was dealt with and the backtick. -/
theorem length_tagBefore_le {flushed tick : Nat} {tag : Text}
    (h : tagBefore src flushed tick = some tag) : tag.length ≤ tick - flushed := by
  unfold tagBefore at h
  dsimp only at h
  split at h
  · obtain rfl := Option.some.inj h
    have hle := (List.takeWhile_sublist (fun b => b.isIdentChar || b == dot)
      (l := (src.slice flushed tick).reverse)).length_le
    rw [List.length_reverse] at hle ⊢
    refine Nat.le_trans hle ?_
    rw [Text.slice, List.length_take]
    exact Nat.min_le_left ..
  · exact absurd h (by simp)

/-- The pieces of the code that was not dealt with cover it. -/
theorem covers_codeFrom (hr : r.Covers src) {lo hi flushed i : Nat} (hhi : hi = src.length)
    {as : List Ast} (h : codeFrom r src lo hi flushed i = .ok as) (hflushed : flushed ≤ i)
    (hle : flushed ≤ hi) : Tiles flushed hi as ∧ ∀ a ∈ as, a.Tiled src := by
  have hopaque {lo : Nat} (h : lo ≤ hi) :
      Tiles lo hi (opaqueCode src lo hi) ∧ ∀ a ∈ opaqueCode src lo hi, a.Tiled src :=
    ⟨tiles_opaqueCode h, tiled_opaqueCode lo hi⟩
  -- A piece found behind opaque code and before the rest.
  have hjoin {lo mid stop : Nat} {found : Ast} {more : List Ast} (hle : lo ≤ mid) (hlt : mid ≤ stop)
      (hfound : found.Tiled src ∧ found.span = some ⟨mid, stop⟩ ∧ stop ≤ src.length)
      (hmore : stop ≤ hi → Tiles stop hi more ∧ ∀ a ∈ more, a.Tiled src) :
      Tiles lo hi (opaqueCode src lo mid ++ found :: more) ∧
        ∀ a ∈ opaqueCode src lo mid ++ found :: more, a.Tiled src := by
    obtain ⟨htiled, hspan, hstop⟩ := hfound
    obtain ⟨htiles, hall⟩ := hmore (hhi ▸ hstop)
    exact ⟨(tiles_opaqueCode hle).append (.cons hspan hlt htiles),
      List.forall_mem_append.mpr ⟨tiled_opaqueCode lo mid, List.forall_mem_cons.mpr ⟨htiled, hall⟩⟩⟩
  replace h := codeTrace h
  induction h with
  | done => exact hopaque hle
  | pass _ hj _ ih => exact ih (by omega) hle
  | @template _ i tag found _ hlt _ htag hfound _ ih =>
    have hlength := length_tagBefore_le htag
    exact hjoin (by omega) (Nat.le_trans (Nat.sub_le ..) (Nat.le_of_lt found.advances))
      (covers_taggedTemplate (by omega) hfound) fun hstop => ih (Nat.le_refl _) hstop
  | @importing _ _ found _ _ _ hfound _ ih =>
    exact hjoin hflushed (Nat.le_of_lt found.advances) (covers_importAt hfound)
      fun hstop => ih (Nat.le_refl _) hstop
  | @element _ _ found _ _ _ _ hfound _ ih =>
    obtain ⟨htiled, hspan, hgreater⟩ := hr hfound
    exact hjoin hflushed (Nat.le_of_lt found.advances)
      ⟨htiled, hspan, stop_le_of_getElem? hgreater⟩ fun hstop => ih (Nat.le_refl _) hstop

/-- The nodes of a module cover it. -/
theorem tiles_program {body : List Ast} (h : program src = .ok body) :
    Tiles 0 src.length body ∧ ∀ a ∈ body, a.Tiled src :=
  covers_codeFrom (covers_readers src _) rfl h (Nat.le_refl _) (Nat.zero_le _)

end Read

end JsxStyle
