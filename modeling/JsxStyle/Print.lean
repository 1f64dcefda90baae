import JsxStyle.Text.Escape
import JsxStyle.Tree.Walk

/-!
# Printing

A tree is printed by copying from the source what was not touched and writing
out the rest.  Wherever a touched node has a place in the source, printing
records a mapping from where the node begins in the output to that place.

Output is put together from pieces that carry their own mappings: joining two
pieces shifts the mappings of the second by the length of the first.

* `append_assoc`, `empty_append`, `append_empty`: joining is associative, with
  the empty piece as unit, so a piece does not depend on how it was put together.
-/

namespace JsxStyle

open Ascii

/-- Where a node begins in the output, and the place it had in the source. -/
structure Mapping where
  generated : Nat
  place : Span
deriving DecidableEq, Repr

/-- The mapping as seen from `n` bytes further to the left. -/
def Mapping.shift (n : Nat) (m : Mapping) : Mapping :=
  { m with generated := n + m.generated }

@[simp] theorem Mapping.shift_zero : Mapping.shift 0 = id := by
  funext m; simp [Mapping.shift]

/-- A piece of output with its mappings. -/
structure Printed where
  code : Text
  mappings : List Mapping := []
deriving DecidableEq, Repr

namespace Printed

/-- No output. -/
def empty : Printed :=
  ⟨[], []⟩

/-- Two pieces, one behind the other. -/
def append (p q : Printed) : Printed :=
  ⟨p.code ++ q.code, p.mappings ++ q.mappings.map (Mapping.shift p.code.length)⟩

instance : Append Printed := ⟨append⟩

/-- Plain output. -/
def ofText (t : Text) : Printed :=
  ⟨t, []⟩

/-- Plain output given as a string. -/
def word (s : String) : Printed :=
  ofText (Text.ofString s)

/-- A mapping of what follows to its place in the source. -/
def mark (s : Span) : Printed :=
  ⟨[], [⟨0, s⟩]⟩

/-- Several pieces, one behind the other. -/
def concat (ps : List Printed) : Printed :=
  ps.foldr append empty

/-- Several pieces with `sep` between neighbours. -/
def joined (sep : Printed) : List Printed → Printed
  | [] => empty
  | [p] => p
  | p :: q :: ps => p ++ (sep ++ joined sep (q :: ps))

@[simp] theorem code_append (p q : Printed) : (p ++ q).code = p.code ++ q.code :=
  rfl

theorem mappings_append (p q : Printed) :
    (p ++ q).mappings = p.mappings ++ q.mappings.map (Mapping.shift p.code.length) :=
  rfl

@[simp] theorem empty_append (p : Printed) : empty ++ p = p := by
  show append empty p = p
  simp [append, empty]

@[simp] theorem append_empty (p : Printed) : p ++ empty = p := by
  show append p empty = p
  simp [append, empty]

/-- Joining pieces is associative. -/
theorem append_assoc (p q s : Printed) : p ++ q ++ s = p ++ (q ++ s) := by
  show append (append p q) s = append p (append q s)
  simp [append, Function.comp_def, Mapping.shift, Nat.add_assoc]

end Printed

/-- Whether a character occurs in a text. -/
def Text.hasChar (c : Char) (t : Text) : Bool :=
  Text.hasWord (Text.ofChar c) t

/-- A string as the value of an attribute.  There are no escapes in such a
string: it stands between quotes that it does not contain, its own if possible,
and becomes an expression in braces if it contains both kinds. -/
def attributeString (value : Text) (quote : Char) : Text :=
  let other := if quote = '"' then '\'' else '"'
  match [quote, other].find? fun q => !value.hasChar q with
  | some q => Text.ofChar q ++ value ++ Text.ofChar q
  | none => [openBrace] ++ Text.quoted '"' value ++ [closeBrace]

/-- The chunks of a template with its holes between them. -/
def interleave : List Text → List Printed → Printed
  | [], _ => Printed.empty
  | chunk :: chunks, [] => Printed.ofText chunk ++ interleave chunks []
  | chunk :: chunks, hole :: holes =>
    Printed.ofText (chunk ++ [dollar, openBrace]) ++ hole ++ Printed.ofText [closeBrace] ++
      interleave chunks holes

/-- The output of a kind whose children have been printed.  `inAttribute` says
that the node is the value of an attribute, which only matters to strings. -/
def Kind.render (inAttribute : Bool) : Kind Printed → Printed
  | program items | fragment items => Printed.concat items
  | code t | text t | ident t => Printed.ofText t
  | importing decl => Printed.ofText decl.raw
  | element head children closing =>
    head ++ Printed.concat children ++ Printed.ofText (closing.getD [])
  | opening name attributes selfClosing =>
    Printed.ofText (less :: name) ++
      Printed.concat (attributes.map (Printed.ofText [space] ++ ·)) ++
      Printed.word (if selfClosing then " />" else ">")
  | attr name none => Printed.ofText name
  | attr name (some value) => Printed.ofText (name ++ [equals]) ++ value
  | spread argument =>
    Printed.ofText [openBrace, dot, dot, dot] ++ argument ++ Printed.ofText [closeBrace]
  | container expression =>
    Printed.ofText [openBrace] ++ expression.getD Printed.empty ++ Printed.ofText [closeBrace]
  | str value quote =>
    Printed.ofText (if inAttribute then attributeString value quote else Text.quoted quote value)
  | array elements =>
    Printed.ofText [openBracket] ++ Printed.joined (Printed.word ", ") elements ++
      Printed.ofText [closeBracket]
  | member object property => object ++ Printed.ofText (dot :: property)
  | call callee arguments =>
    callee ++ Printed.ofText [openParen] ++ Printed.joined (Printed.word ", ") arguments ++
      Printed.ofText [closeParen]
  | template tag chunks holes =>
    tag ++ Printed.ofText [tick] ++ interleave chunks holes ++ Printed.ofText [tick]

namespace Tree

/-- Whether a node is the value of an attribute, as far as it knows. -/
def inAttribute (t : Tree) (id : NodeId) : Bool :=
  (t.parent id).any fun above => t.form above = .attr

/-- Prints a node and at most `depth - 1` levels below it. -/
def printWithin (t : Tree) : (depth : Nat) → NodeId → Printed
  | 0, _ => Printed.empty
  | depth + 1, id =>
    match t.span id, (t.node id).dirty with
    | some s, false => Printed.ofText (s.of t.source)
    | s, _ =>
      (s.map Printed.mark).getD Printed.empty ++
        ((t.kind id).map (t.printWithin depth)).render (t.inAttribute id)

/-- Prints a node.  No chain of distinct nodes is longer than the store. -/
def printNode (t : Tree) (id : NodeId) : Printed :=
  t.printWithin t.size id

/-- Prints the whole tree. -/
def print (t : Tree) : Printed :=
  t.printNode root

end Tree

end JsxStyle
