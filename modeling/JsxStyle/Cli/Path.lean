import JsxStyle.Text.Basic

/-!
# Paths

A path is a text with slashes.  Its components are what the slashes separate,
and repeated slashes, and dots that change nothing, do not count among them.
Files are ordered by their components, so that the files of a directory come
together.  Following a path is stricter: its steps include the dots.

* `components`: how paths are compared, and where their names and parents come from.
* `steps`: what is done to get where a path leads.
* `le`: the order in which files are dealt with.
-/

namespace JsxStyle

namespace Path

open Ascii

/-- A step of a path. -/
inductive Component where
  /-- To the root of the file system. -/
  | root
  /-- To where one is. -/
  | current
  /-- To the directory above. -/
  | parent
  /-- To what has this name. -/
  | name (name : Text)
deriving DecidableEq, Repr

/-- The component that a part between slashes stands for, where it is not the first. -/
def component? (part : Text) : Option Component :=
  if part.isEmpty ∨ part = [dot] then none
  else if part = [dot, dot] then some .parent
  else some (.name part)

/-- The steps of a path. -/
def components (path : Text) : List Component :=
  let parts := Text.pieces slash path
  let first :=
    if path.head? = some slash then [Component.root]
    else if parts.head? = some [dot] then [Component.current]
    else []
  first ++ parts.filterMap component?

/-- The step that a part between slashes stands for when a path is followed.
Here a dot counts: what it stands in must be a directory. -/
def step? (part : Text) : Option Component :=
  if part.isEmpty then none
  else if part = [dot] then some .current
  else if part = [dot, dot] then some .parent
  else some (.name part)

/-- The steps that are taken when a path is followed. -/
def steps (path : Text) : List Component :=
  (if path.head? = some slash then [Component.root] else []) ++
    (Text.pieces slash path).filterMap step?

/-- Whether a path ends with a slash, and so can only name a directory. -/
def endsWithSlash (path : Text) : Bool :=
  path.getLast? == some slash

/-- The name at the end of a path, if it ends with one. -/
def fileName? (path : Text) : Option Text :=
  match (components path).getLast? with
  | some (.name name) => some name
  | _ => none

/-- A file name before its last dot, and what stands behind that dot.  A dot in
front of a name is part of the name. -/
def splitExtension (name : Text) : Text × Option Text :=
  let back := name.reverse.takeWhile (· != dot)
  let stem := name.take (name.length - back.length - 1)
  if back.length = name.length ∨ stem.isEmpty then (name, none) else (stem, some back.reverse)

/-- The extension of the file that a path names. -/
def extension? (path : Text) : Option Text :=
  (fileName? path).bind fun name => (splitExtension name).2

/-- A file name with another extension; an empty one leaves no dot.  The old
extension is taken off behind its dot, and if that leaves two dots, these name
the directory above, which has no extension to change. -/
def withExtension (name ext : Text) : Text :=
  let stem := (splitExtension name).1
  if name.isEmpty then name
  else if stem = [dot] then [dot, dot]
  else stem ++ if ext.isEmpty then [] else dot :: ext

/-- The path of `name` inside `directory`. -/
def join (directory name : Text) : Text :=
  if name.head? = some slash then name
  else if directory.isEmpty ∨ directory.getLast? = some slash then directory ++ name
  else directory ++ slash :: name

/-- The parts of a path without those at the end that change nothing. -/
def dropIdle (parts : List Text) : List Text :=
  (parts.reverse.dropWhile fun part => part.isEmpty || part == [dot]).reverse

/-- The path without its last component, for a path that has a component to lose. -/
def parent? (path : Text) : Option Text :=
  match (components path).getLast? with
  | none | some .root => none
  | some _ =>
    let above := dropIdle (dropIdle (Text.pieces slash path)).dropLast
    some (if above.isEmpty then path.takeWhile (· == slash) else Text.join [slash] above)

/-- The next `count` paths above a path, nearest first. -/
def above : (count : Nat) → Text → List Text
  | 0, _ => []
  | count + 1, path =>
    match parent? path with
    | none => []
    | some parent => parent :: above count parent

/-- The paths above a path, nearest first.  There are no more of them than the
path has components. -/
def ancestors (path : Text) : List Text :=
  above (components path).length path

/-- The lexicographic order of texts by their bytes. -/
def textLe : Text → Text → Bool
  | [], _ => true
  | _ :: _, [] => false
  | a :: s, b :: t => a < b || (a == b && textLe s t)

/-- The rank of a component among components of other sorts. -/
def Component.rank : Component → Nat
  | root => 0
  | current => 1
  | parent => 2
  | name _ => 3

/-- The order of components: by sort, and names by their bytes. -/
def Component.le : Component → Component → Bool
  | name a, name b => textLe a b
  | a, b => a.rank ≤ b.rank

/-- The lexicographic order of component lists. -/
def componentsLe : List Component → List Component → Bool
  | [], _ => true
  | _ :: _, [] => false
  | a :: s, b :: t => if a = b then componentsLe s t else a.le b

/-- The order of paths: that of their components. -/
def le (p q : Text) : Bool :=
  componentsLe (components p) (components q)

end Path

end JsxStyle
