import JvmAssembler.Listing.Operand
import JvmAssembler.Source.Method

/-! A line inside a method is a label, which is one word that ends in a colon, or an instruction. -/

namespace JvmAssembler

/-- A local's declaration, written `name` or `name:descriptor`. -/
def LocalDeclaration.ofText (text : String) : LocalDeclaration :=
  match Text.splitFirst? ':' text.toList with
  | some (name, descriptor) => ⟨String.ofList name, some (String.ofList descriptor)⟩
  | none => ⟨text, none⟩

namespace WrittenInstruction

/-- The declaration after the operands, if there is an arrow. -/
def readDeclaration (mnemonic : Token) :
    List Token → Except ListingError (Option LocalDeclaration)
  | [] => .ok none
  | [_, declared] => .ok (some (.ofText declared.text))
  | _ => .error ⟨mnemonic.position, .declarationForm⟩

/-- An instruction from its mnemonic and the tokens after it. -/
def ofMnemonic (wide : Bool) (mnemonic : Token) (rest : List Token) :
    Except ListingError WrittenInstruction := do
  let (operands, arrow) := rest.span fun token => token.text != "->"
  let declaration ← readDeclaration mnemonic arrow
  let template := Template.ofMnemonic? mnemonic.text
  return {
    mnemonic := mnemonic.text
    operands := operands.toArray.mapIdx fun index token => .ofToken template index token
    wide
    declaration
    position := mnemonic.position }

/-- An instruction from the tokens of its line. -/
def ofTokens (first : Token) (rest : List Token) : Except ListingError WrittenInstruction :=
  if first.text == "wide" && !first.quoted then
    match rest with
    | [] => .error ⟨first.position, .wideAlone⟩
    | mnemonic :: rest => ofMnemonic true mnemonic rest
  else ofMnemonic false first rest

end WrittenInstruction

namespace Statement

/-- The name of the label that a line declares. -/
def labelName? (first : Token) (rest : List Token) : Option String :=
  match rest, first.text.toList.reverse with
  | [], ':' :: reversed => if first.quoted then none else some (String.ofList reversed.reverse)
  | _, _ => none

/-- A statement from the tokens of its line. -/
def ofTokens (first : Token) (rest : List Token) : Except ListingError Statement :=
  match labelName? first rest with
  | some name => .ok (.label name first.position)
  | none => (WrittenInstruction.ofTokens first rest).map .instruction

end Statement

end JvmAssembler
