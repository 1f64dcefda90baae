import JsxStyle.Cli.Arguments
import JsxStyle.Cli.Host
import JsxStyle.Cli.Path
import JsxStyle.Compile
import JsxStyle.Toml.Document

/-!
# The command line

Without inputs, standard input is compiled; a single file is compiled to
standard output or to the file named; several files are compiled into a
directory, one after the other.  Directories among the inputs stand for the
source files right inside them.  The first failure ends the run.
-/

namespace JsxStyle

namespace Cli

open Ascii

/-- How a run ends. -/
inductive Exit where
  | success
  | failure
  /-- The arguments make no sense. -/
  | usage
deriving DecidableEq, Repr

/-- The exit code of a run. -/
def Exit.code : Exit → Nat
  | success => 0
  | failure => 1
  | usage => 2

/-- The extensions of source files. -/
def sourceExtensions : List Text :=
  ["js", "jsx", "ts", "tsx"].map Text.ofString

/-- Whether a path names a source file. -/
def isSource (path : Text) : Bool :=
  (Path.extension? path).any sourceExtensions.contains

/-- The name of the output for a file. -/
def outputName (file : Text) (ext? : Option Text) : Text :=
  let name := (Path.fileName? file).getD []
  match ext? with
  | none => name
  | some ext => Path.withExtension name ext

variable {m : Type → Type} [Monad m] [Host m]

/-- A run that can end early, in failure. -/
abbrev Run (m : Type → Type) := ExceptT Unit m

/-- Writes a line to standard error. -/
def complain (line : Text) : Run m Unit :=
  liftM (Host.writeError (line ++ [newline]) : m Unit)

/-- Ends the run with a complaint. -/
def giveUp {α : Type} (line : Text) : Run m α := do
  complain line
  throw ()

/-- The value of an attempt; a failed one ends the run with a complaint. -/
def orGiveUp {α : Type} (complaint : String) (attempt : m (Except FileError α)) : Run m α := do
  match ← (attempt : m _) with
  | .ok a => return a
  | .error e => giveUp (Text.ofString complaint ++ e.message)

/-- The same for an attempt on a file, which the complaint names. -/
def orGiveUpOn {α : Type} (complaint : String) (path : Text) (attempt : m (Except FileError α)) :
    Run m α := do
  match ← (attempt : m _) with
  | .ok a => return a
  | .error e => giveUp (Text.ofString complaint ++ path ++ Text.ofString ": " ++ e.message)

/-- The text of a file. -/
def readText (path : Text) : m (Except FileError Text) :=
  (·.bind textOf) <$> Host.readFile path

/-- The settings of a run, from the file named and the options given. -/
def settings (i : Invocation) : Run m Settings := do
  match i.setting? .config with
  | none => return i.adjust {}
  | some path =>
    let source ← orGiveUpOn "Error reading config " path (readText path)
    match Settings.ofToml? source with
    | some s => return i.adjust s
    | none => giveUp (Text.ofString "Error parsing config: not a document of settings")

/-- Compiles one text, called `name` in complaints, and reports its diagnostics. -/
def compileText (s : Settings) (name source : Text) : Run m Text := do
  match compile s source with
  | .error e => giveUp (name ++ [colon] ++ e.message)
  | .ok output =>
    for d in output.diagnostics do
      complain (name ++ [colon] ++ d.position.render ++ Text.ofString ": " ++ d.message)
    return output.printed.code

/-- Writes the output of a single text to a file, or to standard output. -/
def deliver (path? : Option Text) (content : Text) : Run m Unit := do
  match path? with
  | none => liftM (Host.writeOutput content : m Unit)
  | some path =>
    if let some above := Path.parent? path then
      let _ ← (Host.makeDirectories above : m _)
    orGiveUpOn "Error writing " path (Host.writeFile path content)

/-- The files that one input stands for. -/
def filesOf (input : Text) : m (List Text) := do
  if ← Host.isDirectory input then
    return ((← Host.namesIn input).map (Path.join input)).filter isSource
  else return [input]

/-- The files that the inputs stand for, in the order in which they are dealt with. -/
def collect (inputs : List Text) : m (List Text) := do
  let files ← inputs.mapM filesOf
  return files.flatten.mergeSort Path.le

/-- Compiles one of several files into a directory. -/
def compileInto (s : Settings) (directory : Text) (ext? : Option Text) (file : Text) :
    Run m Unit := do
  let source ← orGiveUpOn "Error reading " file (readText file)
  let content ← compileText s file source
  let path := Path.join directory (outputName file ext?)
  orGiveUpOn "Error writing " path (Host.writeFile path content)
  complain (file ++ Text.ofString " -> " ++ path)

/-- Compiles the files collected. -/
def compileFiles (i : Invocation) (s : Settings) : List Text → Run m Unit
  | [] => giveUp (Text.ofString "No .js, .jsx, .ts or .tsx files found")
  | [file] => do
    let source ← orGiveUpOn "Error reading " file (readText file)
    deliver (i.setting? .output) (← compileText s file source)
  | files => do
    let some directory := i.setting? .output
      | giveUp (Text.ofString "Multiple input files require --output directory")
    orGiveUp "Error creating output directory: " (Host.makeDirectories directory)
    files.forM (compileInto s directory (i.setting? .ext))

/-- Carries out an invocation. -/
def carryOut (i : Invocation) : Run m Unit := do
  let s ← settings i
  if i.inputs.isEmpty then
    let source ← orGiveUp "Error reading stdin: " ((·.bind textOf) <$> Host.readInput)
    deliver (i.setting? .output) (← compileText s (Text.ofString "<stdin>") source)
  else
    compileFiles i s (← (collect i.inputs : m _))

/-- Runs the command line. -/
def run (args : List Text) : m Exit := do
  match Invocation.ofArguments? args with
  | none => return .usage
  | some i =>
    match ← (carryOut i).run with
    | .ok () => return .success
    | .error () => return .failure

end Cli

end JsxStyle
