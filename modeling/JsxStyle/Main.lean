import JsxStyle.Cli.Run

/-!
# The program

The command line in the file system of the machine it runs on.
-/

namespace JsxStyle

namespace Cli

/-- The reason behind an error of the system. -/
def FileError.ofSystem : IO.Error → FileError
  | .noFileOrDirectory .. => .notFound
  | .alreadyExists .. => .alreadyExists
  | .inappropriateType _ code _ => if code = 21 then .isDirectory else .notDirectory
  | e => .other (Text.ofString (toString e))

/-- The result of an action, or the reason it failed. -/
def attempt {α : Type} (action : IO α) : IO (Except FileError α) := do
  try
    return .ok (← action)
  catch e =>
    return .error (FileError.ofSystem e)

/-- Bytes as the system takes them. -/
def packed (bytes : List Byte) : ByteArray :=
  ⟨bytes.toArray⟩

instance : Host IO where
  readFile path := attempt do return (← IO.FS.readBinFile path.toStr).toList
  writeFile path content := attempt (IO.FS.writeBinFile path.toStr (packed content))
  makeDirectories path := attempt do
    unless path.isEmpty do IO.FS.createDirAll path.toStr
  isDirectory path := do ((← IO.currentDir) / path.toStr).isDir
  namesIn path := do
    let entries ← ((← IO.currentDir) / path.toStr).readDir
    return entries.toList.map fun entry => Text.ofString entry.fileName
  readInput := attempt do return (← (← IO.getStdin).readBinToEnd).toList
  writeOutput t := do (← IO.getStdout).write (packed t)
  writeError t := do (← IO.getStderr).write (packed t)

end Cli

end JsxStyle

/-- Runs the command line with the arguments of the program. -/
def main (args : List String) : IO UInt32 := do
  let exit : JsxStyle.Cli.Exit ← JsxStyle.Cli.run (args.map JsxStyle.Text.ofString)
  if exit = .usage then
    IO.eprintln "usage: [options] [--] [input]..."
  return exit.code.toUInt32
