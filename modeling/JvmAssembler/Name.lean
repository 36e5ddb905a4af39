/-! Fields and methods have unqualified names; classes and interfaces have binary names, whose parts
are separated by slashes. A value of either type carries the proof that its text is a valid name. -/

namespace JvmAssembler

/-- Why a text is no name. -/
inductive NameError where
  /-- A dot, semicolon, opening bracket or slash in an unqualified name. -/
  | illegalCharacter (name : String)
  | empty
  /-- An angle bracket in a name other than those of initializers. -/
  | angleBrackets (name : String)
  | emptyBinary
  | angleBracketsBinary (name : String)
deriving DecidableEq, Repr

def NameError.message : NameError → String
  | illegalCharacter name => s!"Unqualified name '{name}' contains an illegal character"
  | empty => "Unqualified name is empty"
  | angleBrackets name => s!"Only '<init>' and '<clinit>' may contain angle brackets, not '{name}'"
  | emptyBinary => "Binary name is empty"
  | angleBracketsBinary name => s!"Binary name '{name}' contains angle brackets"

/-- The parts of a text between separators. -/
def parts (separator : Char) (text : List Char) : List (List Char) :=
  text.foldr
    (fun c rest =>
      if c = separator then [] :: rest
      else match rest with
        | [] => [[c]]
        | part :: others => (c :: part) :: others)
    [[]]

theorem parts_cons (separator c : Char) (text : List Char) :
    parts separator (c :: text) =
      if c = separator then [] :: parts separator text
      else match parts separator text with
        | [] => [[c]]
        | part :: others => (c :: part) :: others := rfl

def isAngleBracket (c : Char) : Bool := c == '<' || c == '>'

/-- A character that no unqualified name has. -/
def isNameDelimiter (c : Char) : Bool := c == '.' || c == ';' || c == '[' || c == '/'

/-- The first fault of an unqualified name, if it has one. -/
def UnqualifiedName.fault? (text : List Char) : Option NameError :=
  if text.any isNameDelimiter then some (.illegalCharacter (String.ofList text))
  else if text.isEmpty then some .empty
  else if text.any isAngleBracket && text != "<init>".toList && text != "<clinit>".toList then
    some (.angleBrackets (String.ofList text))
  else none

/-- The first fault of a binary name, if it has one. -/
def BinaryName.fault? (text : List Char) : Option NameError :=
  if text.isEmpty then some .emptyBinary
  else if text.any isAngleBracket then some (.angleBracketsBinary (String.ofList text))
  else (parts '/' text).findSome? UnqualifiedName.fault?

/-- Name of a field or method. -/
structure UnqualifiedName where
  text : String
  valid : UnqualifiedName.fault? text.toList = none
deriving DecidableEq

/-- Name of a class or interface. -/
structure BinaryName where
  text : String
  valid : BinaryName.fault? text.toList = none
deriving DecidableEq

namespace UnqualifiedName

def ofString (text : String) : Except NameError UnqualifiedName :=
  match h : fault? text.toList with
  | none => .ok ⟨text, h⟩
  | some fault => .error fault

/-- The name of instance initializers. -/
def init : UnqualifiedName := ⟨"<init>", by decide⟩

/-- The name of class initializers. -/
def clinit : UnqualifiedName := ⟨"<clinit>", by decide⟩

def isInit (name : UnqualifiedName) : Bool := name == init

end UnqualifiedName

namespace BinaryName

def ofString (text : String) : Except NameError BinaryName :=
  match h : fault? text.toList with
  | none => .ok ⟨text, h⟩
  | some fault => .error fault

def javaClass : BinaryName := ⟨"java/lang/Class", by decide⟩

def javaObject : BinaryName := ⟨"java/lang/Object", by decide⟩

def javaString : BinaryName := ⟨"java/lang/String", by decide⟩

def javaThrowable : BinaryName := ⟨"java/lang/Throwable", by decide⟩

end BinaryName

end JvmAssembler
