import JvmAssembler.Text.Split

/-! A path is a row of names between slashes. The name of a file may end in an extension, which is
what follows the last dot, unless the name starts with that dot. -/

namespace JvmAssembler.Path

/-- What stands between the slashes. -/
def parts (path : String) : List String := path.splitOn "/"

/-- The parts of a path that lead elsewhere. An empty part and a single dot do not. -/
def names (path : String) : List String :=
  (parts path).filter fun name => name != "" && name != "."

/-- Does the path start at the root? -/
def isAbsolute (path : String) : Bool := path.toList.head? == some '/'

/-- A path and names below it. -/
def join (path : String) (below : List String) : String :=
  if path.isEmpty || path.toList.getLast? == some '/' then path ++ "/".intercalate below
  else "/".intercalate (path :: below)

/-- A name without its extension, and the extension. -/
def splitName (name : String) : String × Option String :=
  match Text.splitLast? '.' name.toList with
  | none | some ([], _) => (name, none)
  | some (stem, ext) => (String.ofList stem, some (String.ofList ext))

/-- The name of a file without its extension. -/
def stem (path : String) : String :=
  match (names path).getLast? with
  | some name => (splitName name).1
  | none => "unnamed"

end JvmAssembler.Path
