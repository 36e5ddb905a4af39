import JvmAssembler.Source.Position

/-! An instruction as it stands in a listing: its mnemonic and operands, before anything is known
about what they mean. -/

namespace JvmAssembler

/-- A local, by its slot or by its name. -/
inductive LocalRef where
  | index (slot : UInt16)
  | name (text : String)
deriving DecidableEq, Repr

def LocalRef.text : LocalRef → String
  | index slot => toString slot.toNat
  | name text => text

/-- A field or method, written `owner.name:descriptor`. -/
structure MemberRef where
  owner : String
  name : String
  descriptor : String
deriving DecidableEq, Repr

inductive OperandKind where
  | number | decimal | text | localVar | label | type | member
deriving DecidableEq, Repr

def OperandKind.name : OperandKind → String
  | number => "number"
  | decimal => "decimal"
  | text => "string"
  | localVar => "local variable"
  | label => "label"
  | type => "type"
  | member => "member reference"

inductive Operand where
  | number (value : Int64)
  /-- A floating-point number, as the bits of a double. -/
  | decimal (bits : UInt64)
  | text (text : String)
  | localVar (reference : LocalRef)
  | label (name : String)
  /-- A class name or a descriptor. -/
  | type (name : String)
  | member (member : MemberRef)
deriving DecidableEq, Repr

def Operand.kind : Operand → OperandKind
  | number _ => .number
  | decimal _ => .decimal
  | text _ => .text
  | localVar _ => .localVar
  | label _ => .label
  | type _ => .type
  | member _ => .member

/-- The name and type that a store gives to its local, written `-> name:type`. -/
structure LocalDeclaration where
  name : String
  descriptor : Option String
deriving DecidableEq, Repr

structure WrittenInstruction where
  mnemonic : String
  operands : Array Operand := #[]
  /-- Does the word `wide` stand in front? -/
  wide : Bool := false
  declaration : Option LocalDeclaration := none
  position : Position := {}
deriving DecidableEq, Repr

end JvmAssembler
