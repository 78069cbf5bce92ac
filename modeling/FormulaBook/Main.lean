import FormulaBook.Command.Run

/-!
# The command

Reads the arguments and the formula document, runs the analyses and prints what they report.
-/

namespace FormulaBook.Command

/-- A summary of the options. -/
def usage : String :=
  "usage: formulabook -f FILE [-n NAME] [--check] [--tree] [--derivatives] [--layout]\n" ++
    "  [--expand NAME] [--render BASENAME] [--format FORMAT] [--max-depth N]\n" ++
    "  [--json] [-v] [--debug]\n"

/-- What lies under a path. -/
def readSource (path : Path) : IO Source := do
  if path.isLong || path.components.any Path.isLongComponent then return .refused .nameTooLong
  let place := (← IO.currentDir) / path.text
  try
    discard place.metadata
  catch
    | .permissionDenied .. => return .refused .accessDenied
    | _ => return .absent
  try
    return .bytes (← IO.FS.readBinFile place)
  catch _ => return .unreadable

/-- Runs the analyses and prints their report; the exit code tells how it went. -/
def runOn (path : Path) (o : Options) : IO UInt32 := do
  let source ← readSource path
  let folder := (← IO.currentDir) / Section.renderFolder
  let folderExists ← folder.pathExists
  let outcome := inspect o path source folderExists
  if outcome.exitCode = 0 && (renderBase? o).isSome && !folderExists then
    IO.FS.createDirAll folder
  (← IO.getStderr).putStr outcome.stderr
  (← IO.getStdout).putStr outcome.stdout
  return outcome.exitCode.toUInt32

end FormulaBook.Command

/-- The program. -/
def main (args : List String) : IO UInt32 :=
  match FormulaBook.Options.parse args .current with
  | .help => do
    IO.print FormulaBook.Command.usage
    return 0
  | .misuse => do
    IO.eprint FormulaBook.Command.usage
    return 2
  | .run path o => FormulaBook.Command.runOn path o
