import JsxStyle.Settings.Basic

/-!
# Command-line arguments

Options have a long name and some a letter.  An option that takes a value takes
it behind an equals sign, right behind its letter, or as the next argument,
which then must not look like an option itself.  Letters can be put together,
and two hyphens alone end the options.  No option can be given twice.
-/

namespace JsxStyle

namespace Cli

open Ascii

/-- The options that take a value. -/
inductive Setting where
  | output | config | ext
deriving DecidableEq, Repr

/-- The options that do not. -/
inductive Switch where
  | allowStyleProp | noDebugProp | continueOnError | requireImport | verbose
deriving DecidableEq, Repr

/-- An option of either sort. -/
inductive Opt where
  | setting (s : Setting)
  | switch (s : Switch)
deriving DecidableEq, Repr

/-- The options by their long names. -/
def longNames : List (Text × Opt) :=
  [("output", .setting .output), ("config", .setting .config), ("ext", .setting .ext),
    ("allow-style-prop", .switch .allowStyleProp), ("no-debug-prop", .switch .noDebugProp),
    ("continue-on-error", .switch .continueOnError), ("require-import", .switch .requireImport),
    ("verbose", .switch .verbose)].map fun (name, opt) => (Text.ofString name, opt)

/-- The options by their letters. -/
def letters : List (Byte × Opt) :=
  [(0x6F, .setting .output), (0x63, .setting .config), (0x76, .switch .verbose)]

/-- What a command line says. -/
structure Invocation where
  inputs : List Text := []
  settings : List (Setting × Text) := []
  switches : List Switch := []
deriving DecidableEq, Repr

namespace Invocation

/-- The value of an option, if it was given. -/
def setting? (i : Invocation) (s : Setting) : Option Text :=
  i.settings.lookup s

/-- Whether an option was given. -/
def has (i : Invocation) (s : Switch) : Bool :=
  i.switches.contains s

/-- Takes note of an input, which cannot be empty. -/
def addInput (i : Invocation) (path : Text) : Option Invocation :=
  if path.isEmpty then none else some { i with inputs := i.inputs ++ [path] }

/-- Takes note of a value.  Paths cannot be empty. -/
def addSetting (i : Invocation) (s : Setting) (value : Text) : Option Invocation :=
  if (i.setting? s).isSome ∨ (value.isEmpty ∧ s ≠ .ext) then none
  else some { i with settings := i.settings ++ [(s, value)] }

/-- Takes note of an option without a value. -/
def addSwitch (i : Invocation) (s : Switch) : Option Invocation :=
  if i.has s then none else some { i with switches := i.switches ++ [s] }

end Invocation

/-- An option that waits for its value in the next argument. -/
structure Pending where
  setting : Setting
deriving DecidableEq, Repr

/-- Reads one argument that begins with two hyphens, given without them. -/
def readLong (i : Invocation) (arg : Text) : Option (Invocation × Option Pending) := do
  let name := arg.takeWhile (· != equals)
  let value? := (arg.dropWhile (· != equals)).tail?
  match ← longNames.lookup name, value? with
  | .setting s, some value => return (← i.addSetting s value, none)
  | .setting s, none => return (i, some ⟨s⟩)
  | .switch s, none => return (← i.addSwitch s, none)
  | .switch _, some _ => none

/-- Reads the letters of an argument that begins with one hyphen. -/
def readLetters (i : Invocation) : Text → Option (Invocation × Option Pending)
  | [] => some (i, none)
  | letter :: rest => do
    match ← letters.lookup letter with
    | .switch s => readLetters (← i.addSwitch s) rest
    | .setting s =>
      if rest.isEmpty then return (i, some ⟨s⟩)
      else
        let value := if rest.head? = some equals then rest.drop 1 else rest
        return (← i.addSetting s value, none)

/-- Whether an argument cannot be the value of an option before it. -/
def looksLikeOption (arg : Text) : Bool :=
  arg.head? == some hyphen && arg != [hyphen]

/-- Reads arguments; `pending` is an option that waits for its value. -/
def readArguments (i : Invocation) : (pending : Option Pending) → List Text → Option Invocation
  | none, [] => some i
  | some _, [] => none
  | some p, arg :: rest => do
    guard !looksLikeOption arg
    readArguments (← i.addSetting p.setting arg) none rest
  | none, arg :: rest => do
    if arg = [hyphen, hyphen] then rest.foldlM Invocation.addInput i
    else if [hyphen, hyphen].isPrefixOf arg then
      let (i, pending) ← readLong i (arg.drop 2)
      readArguments i pending rest
    else if looksLikeOption arg then
      let (i, pending) ← readLetters i (arg.drop 1)
      readArguments i pending rest
    else readArguments (← i.addInput arg) none rest

/-- What a command line says, if it can be understood. -/
def Invocation.ofArguments? (args : List Text) : Option Invocation :=
  readArguments {} none args

/-- The settings with what the command line adds to them. -/
def Invocation.adjust (i : Invocation) (s : Settings) : Settings :=
  { s with
    options := { s.options with
      allowStyleProp := s.options.allowStyleProp || i.has .allowStyleProp
      continueOnError := s.options.continueOnError || i.has .continueOnError
      requireImport := s.options.requireImport || i.has .requireImport }
    debug := { s.debug with enabled := s.debug.enabled && !i.has .noDebugProp } }

end Cli

end JsxStyle
