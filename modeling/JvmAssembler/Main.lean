import JvmAssembler.CommandLine.Report

/-! Reads the listings, and does what the report on them says. -/

namespace JvmAssembler.CommandLine

/-- The listings that an input names, with their bytes. -/
def loadListings (input : String) : IO (List (String × ByteArray)) := do
  let root := (← IO.currentDir) / input
  if ← root.isDir then
    let depth := root.components.length
    let files ← (← root.walkDir).toList.filterM fun file =>
      return isListing (file.fileName.getD "") && !(← file.isDir)
    files.mapM fun file =>
      return (Path.join input (file.components.drop depth), ← IO.FS.readBinFile file)
  else if ← root.pathExists then return [(input, ← IO.FS.readBinFile root)]
  else return []

/-- Does one thing, and says whether it was a failure. -/
def perform : Action → IO Bool
  | .print text => do
    IO.print text
    return false
  | .complain message => do
    IO.eprintln (Action.logged message)
    return true
  | .write directory name bytes => do
    let directory := (← IO.currentDir) / directory
    IO.FS.createDirAll directory
    IO.FS.writeBinFile (directory / name) bytes
    return false
  | .stop e => throw (IO.userError e.message)

def usage : String :=
  "Usage: [--dump] [--no-implicit-return] [--output-directory DIRECTORY] INPUT"

/-- Runs the command line and returns the exit code. -/
def run (arguments : List String) : IO UInt32 := do
  match Options.ofArguments? arguments with
  | none =>
    IO.eprintln usage
    return 2
  | some options =>
    try
      let actions := report options (← loadListings options.input)
      let failures ← actions.mapM perform
      return if failures.any id then 1 else 0
    catch e =>
      IO.eprintln s!"Error: {e}"
      return 1

end JvmAssembler.CommandLine

def main (arguments : List String) : IO UInt32 := JvmAssembler.CommandLine.run arguments
