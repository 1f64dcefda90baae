import JsxStyle.Tree.Kind

/-!
# Trees as read

An `Ast` is a node with its place in the source, if it has one, and the trees
below it.  Reading builds such trees and generators answer with them.  All
that is done with one is a `fold`: an algebra says what to make of a node whose
children have been dealt with.

* `fold_node`: folding a node is the algebra applied to the folded kind.
-/

namespace JsxStyle

/-- A node, its place in the source if it was read there, and the trees below. -/
inductive Ast where
  | node (span : Option Span) (kind : Kind Ast)

namespace Ast

variable {β : Type}

/-- The place of a tree in the source. -/
def span : Ast → Option Span
  | node s _ => s

/-- The kind of a tree's root. -/
def kind : Ast → Kind Ast
  | node _ k => k

/-- A node read at `lo` to `hi`. -/
def placed (lo hi : Nat) (kind : Kind Ast) : Ast :=
  node (some ⟨lo, hi⟩) kind

/-- A node that was not read anywhere. -/
def made (kind : Kind Ast) : Ast :=
  node none kind

mutual

/-- The algebra `alg` applied to a tree from the leaves up. -/
def fold (alg : Option Span → Kind β → β) : Ast → β
  | node s k => alg s (foldKind alg k)

/-- The algebra applied below a kind. -/
def foldKind (alg : Option Span → Kind β → β) : Kind Ast → Kind β
  | .program body => .program (foldList alg body)
  | .code text => .code text
  | .importing decl => .importing decl
  | .element opening children closing =>
    .element (fold alg opening) (foldList alg children) closing
  | .opening name attributes selfClosing => .opening name (foldList alg attributes) selfClosing
  | .text t => .text t
  | .attr name value => .attr name (foldOption alg value)
  | .spread argument => .spread (fold alg argument)
  | .container expression => .container (foldOption alg expression)
  | .str value quote => .str value quote
  | .ident name => .ident name
  | .array elements => .array (foldList alg elements)
  | .member object property => .member (fold alg object) property
  | .call callee arguments => .call (fold alg callee) (foldList alg arguments)
  | .template tag chunks holes => .template (fold alg tag) chunks (foldList alg holes)
  | .fragment parts => .fragment (foldList alg parts)

/-- The algebra applied to each tree of a list. -/
def foldList (alg : Option Span → Kind β → β) : List Ast → List β
  | [] => []
  | a :: rest => fold alg a :: foldList alg rest

/-- The algebra applied to a tree that may be absent. -/
def foldOption (alg : Option Span → Kind β → β) : Option Ast → Option β
  | none => none
  | some a => some (fold alg a)

end

theorem foldList_eq_map (alg : Option Span → Kind β → β) (as : List Ast) :
    foldList alg as = as.map (fold alg) := by
  induction as with
  | nil => rfl
  | cons a rest ih => simp [foldList, ih]

theorem foldOption_eq_map (alg : Option Span → Kind β → β) (a : Option Ast) :
    foldOption alg a = a.map (fold alg) := by
  cases a <;> rfl

theorem foldKind_eq_map (alg : Option Span → Kind β → β) (k : Kind Ast) :
    foldKind alg k = k.map (fold alg) := by
  cases k <;> simp [foldKind, Kind.map, foldList_eq_map, foldOption_eq_map]

/-- Folding a node applies the algebra to its kind with every child folded. -/
theorem fold_node (alg : Option Span → Kind β → β) (s : Option Span) (k : Kind Ast) :
    fold alg (node s k) = alg s (k.map (fold alg)) := by
  rw [fold, foldKind_eq_map]

/-- The same tree without any places. -/
def unplaced (a : Ast) : Ast :=
  a.fold fun _ k => made k

end Ast

end JsxStyle
