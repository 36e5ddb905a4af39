import JvmAssembler.Listing.Statement
import JvmAssembler.Text.Lines

/-! A listing is read line by line. Lines that start with a dot name the class, open a method and
close it; every other line is a statement of the open method. -/

namespace JvmAssembler

/-- What was read of a listing. -/
structure Reader where
  /-- The place of the next line. -/
  line : LineStart := ⟨1, 0⟩
  /-- The class of the methods that follow. -/
  owner : Option BinaryName := none
  /-- The open method without its body, and its statements, last first. -/
  current : Option (WrittenMethod × List Statement) := none
  /-- The methods that are closed, last first. -/
  closed : List WrittenMethod := []

namespace Reader

/-- Reads `.class name`. -/
def readClass (r : Reader) (first : Token) : List Token → Except ListingError Reader
  | [name] =>
    match BinaryName.ofString name.text with
    | .ok owner => .ok { r with owner := some owner }
    | .error cause => .error ⟨first.position, .className cause⟩
  | _ => .error ⟨first.position, .classForm⟩

def readFlags (first : Token) : AccessFlags → List Token → Except ListingError AccessFlags
  | flags, [] => .ok flags
  | flags, word :: rest =>
    match AccessFlag.ofKeyword? word.text with
    | some flag => readFlags first (flags.insert flag) rest
    | none => .error ⟨first.position, .unknownFlag word.text⟩

/-- Reads `.method flags name(descriptor`. -/
def readMethod (r : Reader) (first : Token) (rest : List Token) : Except ListingError Reader :=
  match r.current, r.owner, rest.getLast? with
  | some _, _, _ => .error ⟨first.position, .methodInMethod⟩
  | none, none, _ => .error ⟨first.position, .methodBeforeClass⟩
  | none, some _, none => .error ⟨first.position, .methodForm⟩
  | none, some owner, some signature => do
    let flags ← readFlags first .empty rest.dropLast
    match signature.text.toList.span (· != '(') with
    | (_, []) => throw ⟨first.position, .noDescriptor⟩
    | (name, descriptor) =>
      let method : WrittenMethod := {
        owner, flags, name := String.ofList name, descriptor := String.ofList descriptor
        position := first.position, body := [] }
      return { r with current := some (method, []) }

/-- Reads `.end`. -/
def readEnd (r : Reader) (first : Token) : Except ListingError Reader :=
  match r.current with
  | some (method, reversed) =>
    .ok { r with current := none, closed := { method with body := reversed.reverse } :: r.closed }
  | none => .error ⟨first.position, .endOutside⟩

def readStatement (r : Reader) (first : Token) (rest : List Token) : Except ListingError Reader :=
  match r.current with
  | some (method, reversed) => do
    let statement ← Statement.ofTokens first rest
    return { r with current := some (method, statement :: reversed) }
  | none => .error ⟨first.position, .instructionOutside⟩

/-- Reads the tokens of a line. -/
def readTokens (r : Reader) : List Token → Except ListingError Reader
  | [] => .ok r
  | first :: rest =>
    match first.text with
    | ".class" => r.readClass first rest
    | ".method" => r.readMethod first rest
    | ".end" => r.readEnd first
    | _ => r.readStatement first rest

/-- Reads a line. A line end counts as one byte. -/
def readLine (r : Reader) (chars : List Char) : Except ListingError Reader := do
  let tokens ← Token.ofLine r.line chars
  let r ← r.readTokens tokens
  return { r with line := ⟨r.line.number + 1, r.line.offset + Token.byteLength chars + 1⟩ }

end Reader

/-- The methods of a listing. -/
def readListing (text : String) : Except ListingError (List WrittenMethod) := do
  let r ← (Text.lines text).foldlM Reader.readLine {}
  match r.current with
  | some (method, _) => throw ⟨method.position, .methodNotClosed method.name⟩
  | none => return r.closed.reverse

end JvmAssembler
