import JvmAssembler.Name
import JvmAssembler.SlotVec

/-! The types of fields, locals and methods, and the descriptors that spell them. A reference type
is a class or an array; an array is given by the type at its bottom and the number of its
dimensions. -/

namespace JvmAssembler

/-- Primitive types. -/
inductive BaseType where
  | byte | char | double | float | int | long | short | boolean
deriving DecidableEq, Repr

namespace BaseType

/-- The type that represents this one on the stack and in locals. -/
def computational : BaseType → BaseType
  | byte | char | short | boolean | int => int
  | float => float
  | long => long
  | double => double

/-- Slots that a value of the type takes. -/
def width : BaseType → Nat
  | double | long => 2
  | _ => 1

def letter : BaseType → Char
  | byte => 'B'
  | char => 'C'
  | double => 'D'
  | float => 'F'
  | int => 'I'
  | long => 'J'
  | short => 'S'
  | boolean => 'Z'

def ofLetter? : Char → Option BaseType
  | 'B' => some byte
  | 'C' => some char
  | 'D' => some double
  | 'F' => some float
  | 'I' => some int
  | 'J' => some long
  | 'S' => some short
  | 'Z' => some boolean
  | _ => none

/-- The type's name in messages. -/
def name : BaseType → String
  | byte => "Byte"
  | char => "Char"
  | double => "Double"
  | float => "Float"
  | int => "Int"
  | long => "Long"
  | short => "Short"
  | boolean => "Boolean"

/-- The type code that stands for an element type in the instruction `newarray`. -/
def arrayCode : BaseType → UInt8
  | boolean => 4
  | char => 5
  | float => 6
  | double => 7
  | byte => 8
  | short => 9
  | int => 10
  | long => 11

@[simp] theorem ofLetter?_letter (t : BaseType) : ofLetter? t.letter = some t := by
  cases t <;> rfl

theorem letter_of_ofLetter? {c : Char} {t : BaseType} (h : ofLetter? c = some t) : t.letter = c := by
  unfold ofLetter? at h
  split at h <;> simp_all <;> subst h <;> rfl

end BaseType

/-- What an array holds once all its dimensions are indexed. -/
inductive ElementType where
  | base (type : BaseType)
  | object (name : BinaryName)
deriving DecidableEq

/-- Class, interface or array type. -/
inductive RefType where
  | object (name : BinaryName)
  /-- An array with `extra + 1` dimensions. -/
  | array (element : ElementType) (extra : Nat)
deriving DecidableEq

/-- Type of a field, parameter or local. -/
inductive FieldType where
  | base (type : BaseType)
  | ref (type : RefType)
deriving DecidableEq

/-- Parameter types and return type of a method; no return type stands for `void`. -/
structure MethodDescriptor where
  parameters : List FieldType
  returns : Option FieldType
deriving DecidableEq

/-- The descriptor of a class type. -/
def BinaryName.descriptor (name : BinaryName) : List Char := 'L' :: name.text.toList ++ [';']

def ElementType.descriptor : ElementType → List Char
  | base type => [type.letter]
  | object name => name.descriptor

namespace RefType

def descriptor : RefType → List Char
  | object name => name.descriptor
  | array element extra => List.replicate (extra + 1) '[' ++ element.descriptor

/-- Number of dimensions, zero for a class. -/
def dimensions : RefType → Nat
  | object _ => 0
  | array _ extra => extra + 1

/-- The array type with elements of a given type. -/
def arrayOf : FieldType → RefType
  | .base type => array (.base type) 0
  | .ref (object name) => array (.object name) 0
  | .ref (array element extra) => array element (extra + 1)

def text (type : RefType) : String := String.ofList type.descriptor

/-- The name in a class constant: the binary name of a class, the descriptor of an array. -/
def className : RefType → String
  | object name => name.text
  | array element extra => text (array element extra)

end RefType

namespace FieldType

def descriptor : FieldType → List Char
  | base type => [type.letter]
  | ref type => type.descriptor

def text (type : FieldType) : String := String.ofList type.descriptor

/-- Slots that a value of the type takes. -/
def width : FieldType → Nat
  | base type => type.width
  | ref _ => 1

def int : FieldType := base .int

def long : FieldType := base .long

def float : FieldType := base .float

def double : FieldType := base .double

def object (name : BinaryName) : FieldType := ref (.object name)

end FieldType

namespace MethodDescriptor

def descriptor (d : MethodDescriptor) : List Char :=
  '(' :: d.parameters.flatMap FieldType.descriptor ++ ')' :: (d.returns.map FieldType.descriptor).getD ['V']

def text (d : MethodDescriptor) : String := String.ofList d.descriptor

/-- Slots that the arguments take, the receiver included if there is one. -/
def argumentSlots (d : MethodDescriptor) (receiver : Bool) : Nat :=
  (if receiver then 1 else 0) + total FieldType.width d.parameters

end MethodDescriptor

/-- What a method declares to return, or what a return instruction returns. -/
inductive ReturnType where
  | void
  | value (type : FieldType)
  /-- A reference to an object of unspecified class. -/
  | anyReference
deriving DecidableEq

namespace ReturnType

def ofOption : Option FieldType → ReturnType
  | none => void
  | some type => value type

/-- Does a return of `actual` satisfy the declared type? Primitive types agree if their computational
types do, and an unspecified reference satisfies every reference type. -/
def accepts : (declared actual : ReturnType) → Bool
  | value (.ref _), anyReference => true
  | value (.base declared), value (.base actual) => declared.computational == actual.computational
  | declared, actual => declared == actual

def text : ReturnType → String
  | void => "V"
  | value type => type.text
  | anyReference => "<object reference>"

end ReturnType

end JvmAssembler
