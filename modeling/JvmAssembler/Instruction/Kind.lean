import JvmAssembler.Descriptor.Basic

/-! The families into which instructions fall: the kinds of value that they move or compute with,
and the operators and forms that tell the members of a family apart. A rank is the place of a member
in its family, which opcodes follow. -/

namespace JvmAssembler

/-- Numbers as the stack holds them. -/
inductive NumericKind where
  | int | long | float | double
deriving DecidableEq, Repr

namespace NumericKind

def width : NumericKind → Nat
  | long | double => 2
  | int | float => 1

def letter : NumericKind → Char
  | int => 'i'
  | long => 'l'
  | float => 'f'
  | double => 'd'

def ofLetter? : Char → Option NumericKind
  | 'i' => some int
  | 'l' => some long
  | 'f' => some float
  | 'd' => some double
  | _ => none

def rank : NumericKind → UInt8
  | int => 0
  | long => 1
  | float => 2
  | double => 3

/-- The kind's name in messages. -/
def name : NumericKind → String
  | int => "Int"
  | long => "Long"
  | float => "Float"
  | double => "Double"

/-- The kind of a value of a primitive type on the stack. -/
def ofBase : BaseType → NumericKind
  | .long => long
  | .float => float
  | .double => double
  | _ => int

end NumericKind

/-- Values that loads, stores and returns move. -/
inductive ValueKind where
  | numeric (kind : NumericKind)
  | reference
deriving DecidableEq, Repr

namespace ValueKind

def width : ValueKind → Nat
  | numeric kind => kind.width
  | reference => 1

def letter : ValueKind → Char
  | numeric kind => kind.letter
  | reference => 'a'

def ofLetter? : Char → Option ValueKind
  | 'a' => some reference
  | c => (NumericKind.ofLetter? c).map numeric

def rank : ValueKind → UInt8
  | numeric kind => kind.rank
  | reference => 4

end ValueKind

/-- Elements that array loads and stores move. -/
inductive ArrayKind where
  | value (kind : ValueKind)
  /-- Also for arrays of `boolean`. -/
  | byte
  | char
  | short
deriving DecidableEq, Repr

namespace ArrayKind

def ofLetter? : Char → Option ArrayKind
  | 'b' => some byte
  | 'c' => some char
  | 's' => some short
  | c => (ValueKind.ofLetter? c).map value

def rank : ArrayKind → UInt8
  | value kind => kind.rank
  | byte => 5
  | char => 6
  | short => 7

end ArrayKind

/-- How the index of a local is written. -/
inductive LocalForm where
  /-- In the opcode, for the indices 0 to 3. -/
  | implicit
  /-- In one byte. -/
  | narrow
  /-- In two bytes, after the opcode `wide`. -/
  | wide
deriving DecidableEq, Repr

/-- How a constant is loaded from the pool. -/
inductive LdcForm where
  /-- Index of one byte. -/
  | narrow
  /-- Index of two bytes. -/
  | wide
  /-- Index of two bytes, for constants that take two slots. -/
  | double
deriving DecidableEq, Repr

inductive ArithmeticOp where
  | add | sub | mul | div | rem
deriving DecidableEq, Repr

def ArithmeticOp.rank : ArithmeticOp → UInt8
  | add => 0
  | sub => 1
  | mul => 2
  | div => 3
  | rem => 4

inductive BitwiseOp where
  | and | or | xor
deriving DecidableEq, Repr

def BitwiseOp.rank : BitwiseOp → UInt8
  | and => 0
  | or => 1
  | xor => 2

inductive ShiftOp where
  | left | arithmeticRight | logicalRight
deriving DecidableEq, Repr

def ShiftOp.rank : ShiftOp → UInt8
  | left => 0
  | arithmeticRight => 1
  | logicalRight => 2

/-- What a comparison of floating-point numbers gives if one of them is not a number. -/
inductive CompareMode where
  | less | greater
deriving DecidableEq, Repr

/-- Types to which an `int` is cut. -/
inductive NarrowInt where
  | byte | char | short
deriving DecidableEq, Repr

/-- Comparisons of integers. -/
inductive OrdComparison where
  | eq | ge | gt | le | lt | ne
deriving DecidableEq, Repr

namespace OrdComparison

def negate : OrdComparison → OrdComparison
  | eq => ne
  | ge => lt
  | gt => le
  | le => gt
  | lt => ge
  | ne => eq

def rank : OrdComparison → UInt8
  | eq => 0
  | ne => 1
  | lt => 2
  | ge => 3
  | gt => 4
  | le => 5

@[simp] theorem negate_negate (c : OrdComparison) : c.negate.negate = c := by
  cases c <;> rfl

end OrdComparison

/-- Comparisons of references. -/
inductive EqComparison where
  | eq | ne
deriving DecidableEq, Repr

def EqComparison.rank : EqComparison → UInt8
  | eq => 0
  | ne => 1

/-- Operations that only rearrange the stack. -/
inductive StackOp where
  | pop | pop2 | dup | dupX1 | dupX2 | dup2 | dup2X1 | dup2X2 | swap
deriving DecidableEq, Repr

def StackOp.rank : StackOp → UInt8
  | pop => 0
  | pop2 => 1
  | dup => 2
  | dupX1 => 3
  | dupX2 => 4
  | dup2 => 5
  | dup2X1 => 6
  | dup2X2 => 7
  | swap => 8

inductive FieldAccess where
  | getStatic | putStatic | getField | putField
deriving DecidableEq, Repr

def FieldAccess.rank : FieldAccess → UInt8
  | getStatic => 0
  | putStatic => 1
  | getField => 2
  | putField => 3

/-- Operations on a class: allocate an object or an array, or test a reference. -/
inductive ClassUse where
  | new | newArray | checkCast | instanceOf
deriving DecidableEq, Repr

inductive InvokeKind where
  | virtual
  | special
  | static
  /-- With the number of slots that the arguments take, the receiver included. -/
  | interface (count : UInt8)
deriving DecidableEq, Repr

/-- Jumps with one target. -/
inductive Jump where
  | ifZero (comparison : OrdComparison)
  | ifInts (comparison : OrdComparison)
  | ifReferences (comparison : EqComparison)
  | ifNull (comparison : EqComparison)
  | goto
  | gotoWide
deriving DecidableEq, Repr

namespace Jump

def isConditional : Jump → Bool
  | goto | gotoWide => false
  | _ => true

def size : Jump → Nat
  | gotoWide => 5
  | _ => 3

end Jump

end JvmAssembler
