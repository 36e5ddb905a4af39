import JvmAssembler.Frame.Value

/-! What an instruction does to a frame: the values that it takes off the stack, top first, and
those that it puts on it, the last one on top. -/

namespace JvmAssembler

/-- What is expected of a value that is taken off the stack or out of a local. -/
inductive Expectation where
  | numeric (kind : NumericKind)
  /-- An initialized reference or null. -/
  | object
  /-- A reference, initialized or not. -/
  | anyReference
  /-- A reference to an object whose constructor was not called. -/
  | uninitialized
  /-- Values that take so many slots together. -/
  | slots (count : Nat)
deriving DecidableEq, Repr

namespace Expectation

def width : Expectation → Nat
  | numeric kind => kind.width
  | slots count => count
  | _ => 1

/-- Does one value of the type meet the expectation? -/
def accepts : Expectation → ValueType → Bool
  | numeric kind, type => type.numeric? == some kind
  | object, type => type.isInitialized
  | anyReference, type => type.isReference
  | uninitialized, type => type.isUninitialized
  | slots count, type => type.width == count

def ofField : FieldType → Expectation
  | .base type => numeric (.ofBase type)
  | .ref _ => object

def ofKind : ValueKind → Expectation
  | .numeric kind => numeric kind
  | .reference => object

def text : Expectation → String
  | numeric kind => (ValueType.numeric kind).text
  | object => "object reference"
  | anyReference => "reference"
  | uninitialized => "uninitialized reference"
  | slots 1 => "category 1 value"
  | slots count => s!"{count} slots of values"

end Expectation

/-- A value that is put on the stack. -/
inductive Pushed where
  | numeric (kind : NumericKind)
  | null
  | anyObject
  | reference (type : RefType)
  /-- A new object whose constructor was not called. -/
  | uninitialized (owner : BinaryName)
  /-- The values that the pop at a position took, unchanged. -/
  | popped (position : Nat)
  /-- The value of a local. -/
  | fromLocal (index : UInt16) (expected : Expectation)
deriving DecidableEq

def Pushed.ofField : FieldType → Pushed
  | .base type => numeric (.ofBase type)
  | .ref type => reference type

structure Change where
  pops : List Expectation := []
  pushes : List Pushed := []
  /-- The local that receives the value popped first. -/
  store : Option UInt16 := none
  /-- The pop whose object counts as initialized from now on. -/
  initializes : Option Nat := none
deriving DecidableEq

namespace Change

def pushedWidth (pops : List Expectation) : Pushed → Nat
  | .numeric kind => kind.width
  | .popped position => (pops[position]?.map Expectation.width).getD 0
  | .fromLocal _ expected => expected.width
  | _ => 1

/-- Change of the stack depth in slots. -/
def slotDelta (c : Change) : Int :=
  total (pushedWidth c.pops) c.pushes - total Expectation.width c.pops

end Change

inductive Effect where
  | unchanged
  | change (change : Change)
deriving DecidableEq

/-- Change of the stack depth in slots. -/
def Effect.slotDelta : Effect → Int
  | unchanged => 0
  | change c => c.slotDelta

end JvmAssembler
