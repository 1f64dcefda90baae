import JsxStyle.Text.Utf8

/-!
# What the command line needs of its surroundings

The command line reads and writes files and the standard streams.  `Host` lists
those effects and leaves open where they take place: in a file system, or in a
value that stands for one.
-/

namespace JsxStyle

namespace Cli

/-- Why a file operation failed. -/
inductive FileError where
  | notFound
  | alreadyExists
  | notDirectory
  | isDirectory
  /-- The bytes that were read are not text. -/
  | notText
  /-- Any other reason, in the words of the system. -/
  | other (message : Text)
deriving DecidableEq, Repr

/-- The wording of a reason. -/
def FileError.message : FileError → Text
  | notFound => Text.ofString "No such file or directory (os error 2)"
  | alreadyExists => Text.ofString "File exists (os error 17)"
  | notDirectory => Text.ofString "Not a directory (os error 20)"
  | isDirectory => Text.ofString "Is a directory (os error 21)"
  | notText => Text.ofString "stream did not contain valid UTF-8"
  | other message => message

/-- The effects of the command line. -/
class Host (m : Type → Type) where
  /-- The bytes of a file. -/
  readFile : (path : Text) → m (Except FileError (List Byte))
  /-- Makes a file hold the given bytes. -/
  writeFile : (path : Text) → List Byte → m (Except FileError Unit)
  /-- Makes a directory and those above it, where they are missing. -/
  makeDirectories : (path : Text) → m (Except FileError Unit)
  /-- Whether a path names a directory. -/
  isDirectory : (path : Text) → m Bool
  /-- The names in a directory, in no particular order. -/
  namesIn : (path : Text) → m (List Text)
  /-- All of standard input. -/
  readInput : m (Except FileError (List Byte))
  /-- Writes to standard output. -/
  writeOutput : Text → m Unit
  /-- Writes to standard error. -/
  writeError : Text → m Unit

/-- The text that bytes encode. -/
def textOf (bytes : List Byte) : Except FileError Text :=
  if Text.isUtf8 bytes then .ok bytes else .error .notText

end Cli

end JsxStyle
