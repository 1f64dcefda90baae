import JsxStyle.Cli.Host
import JsxStyle.Cli.Path

/-!
# A directory as a value

A `Directory` stands for a file system of its own: what is in it, by the names
that lead there.  Its root is a folder and its own parent; relative paths start
at its home.  A `Desk` adds the standard streams, and everything the command
line does can be carried out on it.
-/

namespace JsxStyle

namespace Cli

/-- What stands under a list of names. -/
inductive Entry where
  | file (content : List Byte)
  | folder
deriving DecidableEq, Repr

/-- The entries below a root, each by the names that lead to it, and the names
that lead to where relative paths start. -/
structure Directory where
  home : List Text := []
  entries : List (List Text × Entry) := []
deriving DecidableEq, Repr

namespace Directory

/-- A directory that holds nothing but the folders on the way to its home. -/
def startingAt (home : List Text) : Directory where
  home := home
  entries := (List.range home.length).map fun n => (home.take (n + 1), .folder)

/-- What stands under a list of names; the root is a folder. -/
def entry? (d : Directory) (names : List Text) : Option Entry :=
  if names.isEmpty then some .folder else d.entries.lookup names

/-- The directory with an entry in the place of what was there. -/
def put (d : Directory) (names : List Text) (e : Entry) : Directory :=
  { d with entries := d.entries.filter (·.1 ≠ names) ++ [(names, e)] }

/-- Where a step leads. -/
def step (names : List Text) : Path.Component → List Text
  | .root => []
  | .current => names
  | .parent => names.dropLast
  | .name name => names ++ [name]

/-- Where steps lead.  Each step but the first must start from a folder that is there. -/
def walk (d : Directory) (names : List Text) :
    List Path.Component → Except FileError (List Text)
  | [] => .ok names
  | c :: rest =>
    match d.entry? names with
    | none => .error .notFound
    | some (.file _) => .error .notDirectory
    | some .folder => d.walk (step names c) rest

/-- Where a path leads, whether or not something is there. -/
def resolve (d : Directory) (path : Text) : Except FileError (List Text) :=
  d.walk d.home (Path.steps path)

/-- What a path names. -/
def find (d : Directory) (path : Text) : Except FileError Entry := do
  match d.entry? (← d.resolve path) with
  | none => .error .notFound
  | some .folder => .ok .folder
  | some (.file content) =>
    if Path.endsWithSlash path then .error .notDirectory else .ok (.file content)

/-- Whether a path names a folder. -/
def isFolder (d : Directory) (path : Text) : Bool :=
  d.find path matches .ok .folder

/-- The bytes of a file. -/
def readFile (d : Directory) (path : Text) : Except FileError (List Byte) := do
  match ← d.find path with
  | .folder => .error .isDirectory
  | .file content => .ok content

/-- The directory with a file of the given bytes. -/
def writeFile (d : Directory) (path : Text) (content : List Byte) : Except FileError Directory := do
  let names ← d.resolve path
  if d.entry? names = some .folder ∨ Path.endsWithSlash path then .error .isDirectory
  else .ok (d.put names (.file content))

/-- The directory with one more folder, where nothing was. -/
def makeFolder (d : Directory) (path : Text) : Except FileError Directory := do
  let names ← d.resolve path
  if (d.entry? names).isSome then .error .alreadyExists
  else .ok (d.put names .folder)

/-- Makes a folder, unless it is there. -/
def ensureFolder (d : Directory) (path : Text) : Except FileError Unit × Directory :=
  match d.makeFolder path with
  | .ok made => (.ok (), made)
  | .error e => (if d.isFolder path then .ok () else .error e, d)

/-- Makes a folder, unless it is there, given the paths above it: if those are
missing, they are made first.  Folders made on the way stay, whatever comes
after them. -/
def ensureFolders (d : Directory) (path : Text) :
    (above : List Text) → Except FileError Unit × Directory
  | [] => d.ensureFolder path
  | parent :: above =>
    match d.ensureFolder path with
    | (.error .notFound, _) =>
      match d.ensureFolders parent above with
      | (.ok (), made) => made.ensureFolder path
      | failed => failed
    | done => done

/-- Makes a folder and those above it, where they are missing. -/
def makeFolders (d : Directory) (path : Text) : Except FileError Unit × Directory :=
  d.ensureFolders path (Path.ancestors path)

/-- The names right inside what a path names. -/
def namesIn (d : Directory) (path : Text) : List Text :=
  match d.resolve path with
  | .error _ => []
  | .ok names =>
    d.entries.filterMap fun (key, _) => if key.dropLast = names then key.getLast? else none

/-- The directory with a file or a folder put in, and the folders above it. -/
def place (d : Directory) (path : Text) (e : Entry) : Directory :=
  let d := match Path.parent? path with
    | none => d
    | some parent => (d.makeFolders parent).2
  match d.resolve path with
  | .ok names => d.put names e
  | .error _ => d

/-- What is below the home of a directory, by the names that lead there from the home. -/
def contents (d : Directory) : List (List Text × Entry) :=
  d.entries.filterMap fun (names, e) =>
    if d.home.isPrefixOf names ∧ d.home ≠ names then some (names.drop d.home.length, e) else none

end Directory

/-- A directory with standard input, output and error. -/
structure Desk where
  directory : Directory := {}
  input : List Byte := []
  output : Text := []
  errors : Text := []
deriving DecidableEq, Repr

/-- Changes the directory of the desk, if the change succeeds. -/
def Desk.attempt (change : Directory → Except FileError Directory) :
    StateM Desk (Except FileError Unit) := do
  let desk ← get
  match change desk.directory with
  | .ok directory =>
    set { desk with directory }
    return .ok ()
  | .error e => return .error e

/-- Changes the directory of the desk, whether or not all of the change succeeds. -/
def Desk.proceed (change : Directory → Except FileError Unit × Directory) :
    StateM Desk (Except FileError Unit) := do
  let desk ← get
  let (outcome, directory) := change desk.directory
  set { desk with directory }
  return outcome

instance : Host (StateM Desk) where
  readFile path := return (← get).directory.readFile path
  writeFile path content := Desk.attempt (·.writeFile path content)
  makeDirectories path := Desk.proceed (·.makeFolders path)
  isDirectory path := return (← get).directory.isFolder path
  namesIn path := return (← get).directory.namesIn path
  readInput := return .ok (← get).input
  writeOutput t := modify fun desk => { desk with output := desk.output ++ t }
  writeError t := modify fun desk => { desk with errors := desk.errors ++ t }

end Cli

end JsxStyle
