import JsxStyle.Scan.Mention
import JsxStyle.Style.Vocabulary
import JsxStyle.Tree.Edit

/-!
# The import of the style builder

The style builder is what a module imports, by default or by name, from one of
the sources that export it.  Once nothing refers to it any more, its import can
go: the whole statement, or the one binding where others are still in use.  A
statement with a namespace binding is kept, since such bindings are not
remembered and it could not be written out again.
-/

namespace JsxStyle

open Ascii

/-- The import statement of the style builder and the name it has in the module. -/
structure StyleImport where
  node : NodeId
  name : Text
deriving DecidableEq, Repr

/-- The name an import statement gives to the style builder. -/
def ImportDecl.builder? (decl : ImportDecl) : Option Text :=
  decl.default? <|>
    (decl.named.find? (·.imported == Vocabulary.builderExport)).map (·.bound)

/-- The names an import statement binds, so far as they are remembered. -/
def ImportDecl.boundNames (decl : ImportDecl) : List Text :=
  decl.default?.toList ++ decl.named.map (·.bound)

/-- A binding as it is written in a clause. -/
def Binding.render (b : Binding) : Text :=
  if b.imported = b.bound then b.bound else b.imported ++ Text.ofString " as " ++ b.bound

/-- The clause that binds `default?` and `named`. -/
def renderClause (default? : Option Text) (named : List Binding) : Text :=
  let braced :=
    Text.ofString "\x7b " ++ Text.join (Text.ofString ", ") (named.map Binding.render) ++
      Text.ofString " \x7d"
  Text.join (Text.ofString ", ") (default?.toList ++ if named.isEmpty then [] else [braced])

/-- The statement without the bindings called `name`.  From the first quote
on, where the source begins, its text is kept. -/
def ImportDecl.without (decl : ImportDecl) (name : Text) : ImportDecl :=
  let default? := decl.default?.filter (· ≠ name)
  let named := decl.named.filter (·.bound ≠ name)
  let tail :=
    match decl.raw.findIdx? Byte.isQuote with
    | some i => decl.raw.drop i
    | none => [apostrophe] ++ decl.source ++ [apostrophe, newline]
  { decl with
    default?, named
    raw := Text.ofString "import " ++ renderClause default? named ++
      Text.ofString " from " ++ tail }

namespace Tree

/-- The first import of the style builder from one of `sources`. -/
def styleImport? (t : Tree) (sources : List Text) : Option StyleImport :=
  (t.children root).findSome? fun id =>
    match t.kind id with
    | .importing decl =>
      if sources.contains decl.source then decl.builder?.map (⟨id, ·⟩) else none
    | _ => none

/-- The identifiers called `name`, in source order. -/
def referencesTo (t : Tree) (name : Text) : List NodeId :=
  (t.descendants root).filter fun id => t.kind id = .ident name

/-- Whether a node uses `name`: as an identifier, as an element, or in its code. -/
def uses (t : Tree) (name : Text) (id : NodeId) : Bool :=
  match t.kind id with
  | .ident ident => ident == name
  | .code code => Scan.mentions name code
  | .opening tag _ _ => (Text.pieces dot tag).head? == some name
  | _ => false

/-- Whether anything in the module uses `name`; import statements do not count. -/
def isReferenced (t : Tree) (name : Text) : Bool :=
  (t.descendants root).any (t.uses name)

/-- Takes the style builder out of the module's imports, unless it is still used. -/
def stripImport (t : Tree) (found : StyleImport) : Tree :=
  match t.kind found.node with
  | .importing decl =>
    if t.isReferenced found.name || decl.raw.contains star then t
    else if decl.boundNames.any fun other => other != found.name && t.isReferenced other then
      let (kept, t) := t.alloc (.importing (decl.without found.name)) none
      t.replaceAt found.node kept
    else t.remove found.node
  | _ => t

/-- The style builder is left where it is, or an import without it takes the place of the
import, or the import is removed. -/
theorem stripImport_cases (t : Tree) (found : StyleImport) :
    t.stripImport found = t ∨ ∃ decl, t.kind found.node = .importing decl ∧
      (t.stripImport found =
          (t.alloc (.importing (decl.without found.name)) none).2.replaceAt found.node t.size ∨
        t.stripImport found = t.remove found.node) := by
  unfold stripImport
  cases t.kind found.node with
  | importing decl =>
    dsimp only
    split
    case isTrue => exact .inl rfl
    case isFalse =>
      refine .inr ⟨decl, rfl, ?_⟩
      split
      case isTrue => exact .inl rfl
      case isFalse => exact .inr rfl
  | _ => exact .inl rfl

end Tree

end JsxStyle
