import JvmAssembler.Text.Split

/-! Options of the command line. -/

namespace JvmAssembler.CommandLine

structure Options where
  /-- The listing, or the directory of listings. -/
  input : String
  /-- The directory that code is written into. -/
  output : Option String := none
  /-- Print code and stack maps. -/
  dump : Bool := false
  implicitReturn : Bool := true

/-- The directory in an argument of the form `--output-directory=directory`. -/
def outputDirectory? (argument : String) : Option String :=
  match Text.splitFirst? '=' argument.toList with
  | some (name, directory) =>
    if String.ofList name == "--output-directory" then some (String.ofList directory) else none
  | none => none

/-- Can the argument be a path? A hyphen starts an option, unless it stands alone. -/
def isPath (argument : String) : Bool :=
  argument == "-" || (!argument.isEmpty && argument.toList.head? != some '-')

/-- Reads the arguments that follow others, which may have named the input already. -/
def readArguments (input : Option String) (o : Options) : List String → Option Options
  | [] => input.map fun path => { o with input := path }
  | "--dump" :: rest => readArguments input { o with dump := true } rest
  | "--no-implicit-return" :: rest => readArguments input { o with implicitReturn := false } rest
  | "--output-directory" :: directory :: rest =>
    if isPath directory then readArguments input { o with output := some directory } rest else none
  | argument :: rest =>
    match outputDirectory? argument, input with
    | some directory, _ =>
      if directory.isEmpty then none
      else readArguments input { o with output := some directory } rest
    | none, some _ => none
    | none, none => if isPath argument then readArguments (some argument) o rest else none

/-- The options that arguments stand for, in any order, if there is one input. -/
def Options.ofArguments? (arguments : List String) : Option Options :=
  readArguments none { input := "" } arguments

end JvmAssembler.CommandLine
