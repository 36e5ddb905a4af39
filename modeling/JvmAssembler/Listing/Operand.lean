import JvmAssembler.Ieee.Decimal
import JvmAssembler.Listing.Token
import JvmAssembler.Mnemonic
import JvmAssembler.Source.Instruction
import JvmAssembler.Text.Split

/-! What an operand is depends on its form and on the instruction that it belongs to. A word is a
label after a jump or switch, a local as the first operand of an instruction on locals, and a type
or member elsewhere, unless it is a number. -/

namespace JvmAssembler

namespace Operand

/-- An integer without the sign in front, in base sixteen after `0x`. -/
def readInteger? : List Char → Option Int
  | '0' :: 'x' :: digits => Text.readInt64? 16 digits
  | digits => Text.readInt64? 10 digits

/-- Does a number start with this character, after its sign? -/
def startsNumber (digits : List Char) : Bool :=
  match digits with
  | c :: _ => c.isDigit
  | [] => false

/-- A number. One that is no integer of 64 bits is read as a decimal. -/
def readNumber? (text : List Char) : Option Operand :=
  let (negative, digits) := match text with
    | '-' :: rest => (true, rest)
    | _ => (false, text)
  if startsNumber digits then
    match readInteger? digits with
    | some n => some (.number (Int64.ofInt (if negative then -n else n)))
    | none => (Ieee.readDouble? text).map .decimal
  else none

/-- A member, written `owner.name:descriptor`. -/
def readMember? (text : List Char) : Option Operand := do
  let (qualified, descriptor) ← Text.splitFirst? ':' text
  let (owner, name) ← Text.splitLast? '.' qualified
  return .member ⟨String.ofList owner, String.ofList name, String.ofList descriptor⟩

/-- A local, by its slot or its name. -/
def readLocal (text : String) : Operand :=
  match Text.readBelow? 65536 text.toList with
  | some slot => .localVar (.index (UInt16.ofNat slot))
  | none => .localVar (.name text)

end Operand

namespace Template

/-- Is the first operand a local? -/
def startsWithLocal : Template → Bool
  | load _ _ | store _ _ | increment => true
  | _ => false

/-- Are words among the operands labels? -/
def takesLabels : Template → Bool
  | jump _ | tableSwitch | lookupSwitch => true
  | _ => false

end Template

/-- The operand with a number of an instruction, whose template may be unknown. -/
def Operand.ofToken (template : Option Template) (index : Nat) (token : Token) : Operand :=
  if token.quoted then .text token.text
  else if index = 0 && template.any Template.startsWithLocal then readLocal token.text
  else
    match readNumber? token.text.toList with
    | some operand => operand
    | none =>
      if template.any Template.takesLabels then .label token.text
      else (readMember? token.text.toList).getD (.type token.text)

end JvmAssembler
