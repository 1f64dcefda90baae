import JsxStyle.Text.Span

/-!
# Kinds of node

A module is read as a tree of markup, imports, a handful of expression forms
and opaque code.  `Kind α` lists those forms once, with `α` in the place of
the nodes below: a kind whose children are identifiers is what a `Tree` stores,
and a kind whose children are trees is what the reader builds.

* `children_map`: mapping a kind maps its children, in order;
* `setItems_items`: the list of a kind that grows and shrinks can be put back.
-/

namespace JsxStyle

/-- One binding of an import clause: the exported name and the name it gets here. -/
structure Binding where
  imported : Text
  bound : Text
deriving DecidableEq, Repr

/-- An import statement. -/
structure ImportDecl where
  /-- The module imported from. -/
  source : Text
  /-- The name bound to the default export. -/
  default? : Option Text
  /-- The bindings between braces. -/
  named : List Binding
  /-- The whole statement as written, with the line break that ends it. -/
  raw : Text
deriving DecidableEq, Repr

/-- A node with `α` in the place of the nodes below it. -/
inductive Kind (α : Type) where
  | program (body : List α)
  /-- Code that is not looked into. -/
  | code (text : Text)
  | importing (decl : ImportDecl)
  /-- An element; `closing` is its closing tag as written, absent when the opening tag closes
  itself. -/
  | element (opening : α) (children : List α) (closing : Option Text)
  /-- An opening tag, which owns the attributes. -/
  | opening (name : Text) (attributes : List α) (selfClosing : Bool)
  /-- Text between tags. -/
  | text (text : Text)
  | attr (name : Text) (value : Option α)
  | spread (argument : α)
  /-- An expression in braces; empty braces hold none. -/
  | container (expression : Option α)
  | str (value : Text) (quote : Char)
  | ident (name : Text)
  | array (elements : List α)
  | member (object : α) (property : Text)
  | call (callee : α) (arguments : List α)
  /-- A tagged template; its raw chunks are one more than its holes. -/
  | template (tag : α) (chunks : List Text) (holes : List α)
  /-- An expression of no other form: opaque code around the markup and templates found in it. -/
  | fragment (parts : List α)
deriving DecidableEq, Repr

/-- The form of a node without its contents. -/
inductive Form where
  | program | code | importing | element | opening | text | attr | spread | container
  | str | ident | array | member | call | template | fragment
deriving DecidableEq, Repr

namespace Kind

variable {α β : Type}

/-- The form of a kind. -/
def form : Kind α → Form
  | program _ => .program
  | code _ => .code
  | importing _ => .importing
  | element .. => .element
  | opening .. => .opening
  | text _ => .text
  | attr .. => .attr
  | spread _ => .spread
  | container _ => .container
  | str .. => .str
  | ident _ => .ident
  | array _ => .array
  | member .. => .member
  | call .. => .call
  | template .. => .template
  | fragment _ => .fragment

/-- The nodes directly below, in source order. -/
def children : Kind α → List α
  | program body => body
  | element head children _ => head :: children
  | opening _ attributes _ => attributes
  | attr _ value => value.toList
  | spread argument => [argument]
  | container expression => expression.toList
  | array elements => elements
  | member object _ => [object]
  | call callee arguments => callee :: arguments
  | template tag _ holes => tag :: holes
  | fragment parts => parts
  | code _ | importing _ | text _ | str .. | ident _ => []

/-- The same kind with `f` applied to every node below. -/
def map (f : α → β) : Kind α → Kind β
  | program body => program (body.map f)
  | code t => code t
  | importing decl => importing decl
  | element head children closing => element (f head) (children.map f) closing
  | opening name attributes selfClosing => opening name (attributes.map f) selfClosing
  | text t => text t
  | attr name value => attr name (value.map f)
  | spread argument => spread (f argument)
  | container expression => container (expression.map f)
  | str value quote => str value quote
  | ident name => ident name
  | array elements => array (elements.map f)
  | member object property => member (f object) property
  | call callee arguments => call (f callee) (arguments.map f)
  | template tag chunks holes => template (f tag) chunks (holes.map f)
  | fragment parts => fragment (parts.map f)

/-- The same kind with the effectful `f` run on every node below, in source order. -/
def traverse {m : Type → Type} [Monad m] (f : α → m β) : Kind α → m (Kind β)
  | program body => return program (← body.mapM f)
  | code t => return code t
  | importing decl => return importing decl
  | element head children closing => return element (← f head) (← children.mapM f) closing
  | opening name attributes selfClosing => return opening name (← attributes.mapM f) selfClosing
  | text t => return text t
  | attr name value => return attr name (← value.mapM f)
  | spread argument => return spread (← f argument)
  | container expression => return container (← expression.mapM f)
  | str value quote => return str value quote
  | ident name => return ident name
  | array elements => return array (← elements.mapM f)
  | member object property => return member (← f object) property
  | call callee arguments => return call (← f callee) (← arguments.mapM f)
  | template tag chunks holes => return template (← f tag) chunks (← holes.mapM f)
  | fragment parts => return fragment (← parts.mapM f)

/-- The list of a kind that nodes can be added to and taken out of: body,
attributes, child nodes, elements, arguments or parts. -/
def items? : Kind α → Option (List α)
  | program body => some body
  | element _ children _ => some children
  | opening _ attributes _ => some attributes
  | array elements => some elements
  | call _ arguments => some arguments
  | fragment parts => some parts
  | _ => none

/-- The same kind with another such list; a kind without one stays as it is. -/
def setItems (items : List α) : Kind α → Kind α
  | program _ => program items
  | element head _ closing => element head items closing
  | opening name _ selfClosing => opening name items selfClosing
  | array _ => array items
  | call callee _ => call callee items
  | fragment _ => fragment items
  | k => k

/-- The same kind with the first occurrence of `old` below replaced by `new`. -/
def replaceChild [DecidableEq α] (old new : α) : Kind α → Kind α
  | program body => program (body.replace old new)
  | element head children closing =>
    if head = old then element new children closing
    else element head (children.replace old new) closing
  | opening name attributes selfClosing => opening name (attributes.replace old new) selfClosing
  | attr name value => attr name (if value = some old then some new else value)
  | spread argument => spread (if argument = old then new else argument)
  | container expression => container (if expression = some old then some new else expression)
  | array elements => array (elements.replace old new)
  | member object property => member (if object = old then new else object) property
  | call callee arguments =>
    if callee = old then call new arguments else call callee (arguments.replace old new)
  | template tag chunks holes =>
    if tag = old then template new chunks holes else template tag chunks (holes.replace old new)
  | fragment parts => fragment (parts.replace old new)
  | k => k

/-- The same kind without `child`, where a kind of that form can do without it:
in its list, as the value of an attribute, or as the expression of a container. -/
def dropChild [DecidableEq α] (child : α) (k : Kind α) : Kind α :=
  match k.items? with
  | some items => k.setItems (items.filter (· ≠ child))
  | none =>
    match k with
    | attr name value => attr name (if value = some child then none else value)
    | container expression => container (if expression = some child then none else expression)
    | _ => k

@[simp] theorem children_map (f : α → β) (k : Kind α) : (k.map f).children = k.children.map f := by
  cases k with
  | attr _ value => cases value <;> rfl
  | container expression => cases expression <;> rfl
  | _ => rfl

@[simp] theorem form_map (f : α → β) (k : Kind α) : (k.map f).form = k.form := by
  cases k <;> rfl

@[simp] theorem form_setItems (items : List α) (k : Kind α) : (k.setItems items).form = k.form := by
  cases k <;> rfl

theorem setItems_items {k : Kind α} {items : List α} (h : k.items? = some items) :
    k.setItems items = k := by
  cases k <;> simp_all [items?, setItems]

end Kind

end JsxStyle
