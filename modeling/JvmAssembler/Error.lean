import JvmAssembler.Constant.Pool
import JvmAssembler.Descriptor.Read
import JvmAssembler.Frame.Basic
import JvmAssembler.Frame.Effect
import JvmAssembler.Instruction.Encode
import JvmAssembler.Source.Instruction

/-! Everything that can be wrong with a method, as causes with the facts that they are about. The
wording is in `message`. -/

namespace JvmAssembler

/-- Number of local slots that a method can have. -/
def maxLocals : Nat := 65535

/-- Number of local slots that the arguments of a method can take, the receiver included. -/
def maxArgumentSlots : Nat := 255

/-- Number of bytes that the code of a method can take. -/
def maxCodeSize : Nat := 65535

/-- What is wrong with a written instruction. -/
inductive IllegalCause where
  | unknownMnemonic
  | operandCount (expected found : Nat)
  | noWideForm
  | missingOperand (index : Nat)
  | operandKind (index : Nat) (expected found : OperandKind)
  | outOfRange (what : String) (value : Int)
  | notLdcConstant
  | notWideConstant
  /-- A value of the kind that the instruction moves does not fit at the slot. -/
  | slotTooHigh (mnemonic : String) (index : Nat)
  | indexNeedsWide (index : Nat) (mnemonic : String)
  | amountNeedsWide (amount : Int)
  /-- A new local does not fit at the slot. -/
  | localTooHigh (name : String) (type : FieldType) (index : Nat)
  | tableTooShort
  | tableTooLong
  | unpairedKeys
  | notKey (index : Nat)
  | repeatedKey (key : Int32)
  | callOfClassInitializer
  | callOfConstructor
  | constructorResult
  | tooManyArguments (slots : Nat)
  | newOfArray
  | notPrimitive (name : String)
  | dimensionCount (count available : Nat)
deriving DecidableEq

def IllegalCause.message : IllegalCause → String
  | unknownMnemonic => "unknown instruction"
  | operandCount expected found => s!"expected {expected} operand(s), found {found}"
  | noWideForm => "instruction has no wide form"
  | missingOperand index => s!"missing operand {index + 1}"
  | operandKind index expected found =>
    s!"operand {index + 1} should be a {expected.name}, but is a {found.name}"
  | outOfRange what value => s!"{what} {value} is out of range"
  | notLdcConstant => "expected an int, float, string, or class constant"
  | notWideConstant => "expected a long or double constant"
  | slotTooHigh mnemonic index =>
    s!"'{mnemonic}' at slot {index} does not fit in {maxLocals} local slots"
  | indexNeedsWide index mnemonic =>
    s!"local index {index} does not fit in one byte, use 'wide {mnemonic}'"
  | amountNeedsWide amount =>
    s!"increment {amount} does not fit in a signed byte, use 'wide iinc'"
  | localTooHigh name type index =>
    s!"local '{name}' of type {type.text} at slot {index} does not fit in {maxLocals} local slots"
  | tableTooShort => "expected a low key, at least one target, and a default"
  | tableTooLong => "too many targets for the low key"
  | unpairedKeys => "expected key and target pairs, then a default"
  | notKey index => s!"operand {index + 1} should be a key"
  | repeatedKey key => s!"key {key.toInt} appears more than once"
  | callOfClassInitializer => "class initializers cannot be invoked"
  | callOfConstructor => "instance initializers are only called with invokespecial"
  | constructorResult => "instance initializers must return void"
  | tooManyArguments slots => s!"{slots} argument slots is too many"
  | newOfArray => "arrays are created with newarray, anewarray, or multianewarray"
  | notPrimitive name => s!"'{name}' is not a primitive element type"
  | dimensionCount count available =>
    s!"cannot create {count} dimension(s) of a {available} dimension array"

/-- What is wrong with a name or descriptor. -/
inductive DescriptorCause where
  | name (cause : NameError)
  | descriptor (cause : DescriptorError)
  /-- A constructor is static or returns a value. -/
  | constructorShape
  | tooManyParameters
deriving DecidableEq, Repr

def DescriptorCause.message : DescriptorCause → String
  | name cause => cause.message
  | descriptor cause => cause.message
  | constructorShape => "constructors must be non-static and return void"
  | tooManyParameters => s!"parameters take more than {maxArgumentSlots} local slots"

/-- What does not fit into the code. -/
inductive RangeCause where
  | codeSize (size : Nat)
  | ldcIndex (index : Nat)
  | jump (mnemonic : String) (distance : Int)
deriving DecidableEq, Repr

def RangeCause.message : RangeCause → String
  | codeSize size => s!"method code is {size} bytes long, more than {maxCodeSize}"
  | ldcIndex index => s!"constant pool index {index} does not fit in `ldc`, use `ldc_w`"
  | jump mnemonic distance => s!"`{mnemonic}` jumps {distance} bytes, which needs a wide jump"

/-- What is wrong with a method. Instructions and labels are given by their numbers. -/
inductive CompileError where
  /-- An instruction takes a value off an empty stack. -/
  | stackUnderflow (instruction : Nat) (position : Position) (mnemonic : String)
      (expected : Expectation)
  /-- A value on the stack is not what an instruction expects. -/
  | stackMismatch (instruction : Nat) (position : Position) (mnemonic : String)
      (producer : Option Nat) (expected : Expectation) (actual : ValueType)
  /-- Two paths reach a label with stacks of different depths. -/
  | depthsDiffer (label : Nat) (name : String) (position : Position) (expected actual : Frame)
  /-- Two paths reach a label with different shapes of stack entries or locals. -/
  | framesDiffer (label : Nat) (name : String) (position : Position) (expected actual : Frame)
      (mismatch : Mismatch)
  /-- A jump to a label that is not declared, or that has no instruction after it. -/
  | unknownJump (instruction : Nat) (position : Position) (target : String) (label : Option Nat)
  | illegal (position : Position) (mnemonic : String) (cause : IllegalCause)
  | returnMismatch (position : Position) (declared actual : ReturnType)
  | unknownLocal (position : Position) (reference : LocalRef) (mnemonic : String)
  /-- A local does not hold what a load expects. -/
  | localMismatch (instruction : Nat) (position : Position) (index : UInt16)
      (expected : Expectation) (actual : ValueType)
  | duplicateLabel (name : String) (position : Position)
  /-- The last instruction can be followed by another. -/
  | fallsOffEnd (instruction : Option Nat) (position : Position)
  | badDescriptor (position : Position) (text : String) (cause : DescriptorCause)
  | poolOverflow (overflow : PoolOverflow)
  | outOfRange (instruction : Nat) (position : Position) (cause : RangeCause)
  /-- An instruction or stack map entry has no encoding. -/
  | encoding (cause : EncodeError)

namespace CompileError

def position? : CompileError → Option Position
  | stackUnderflow _ position _ _ | stackMismatch _ position _ _ _ _
  | depthsDiffer _ _ position _ _ | framesDiffer _ _ position _ _ _ | unknownJump _ position _ _
  | illegal position _ _ | returnMismatch position _ _ | unknownLocal position _ _
  | localMismatch _ position _ _ _ | duplicateLabel _ position | fallsOffEnd _ position
  | badDescriptor position _ _ | outOfRange _ position _ => some position
  | poolOverflow _ | encoding _ => none

def message : CompileError → String
  | stackUnderflow instruction _ mnemonic expected =>
    s!"stack underflow at instruction #{instruction} ({mnemonic}): expected {expected.text}"
  | stackMismatch instruction _ mnemonic producer expected actual =>
    s!"instruction #{instruction} ({mnemonic}) expected {expected.text} but found {actual.text}"
      ++ match producer with
        | some producer => s!" (pushed by instruction #{producer})"
        | none => " (from the method parameters)"
  | depthsDiffer _ name _ expected actual =>
    s!"stack size differs at label '{name}': expected {expected.text} but got {actual.text}"
  | framesDiffer _ name _ expected actual mismatch =>
    s!"frames differ at label '{name}' ({mismatch.message}): expected {expected.text} but got {actual.text}"
  | unknownJump instruction _ target none =>
    s!"instruction #{instruction} jumps to undeclared label '{target}'"
  | unknownJump instruction _ target (some _) =>
    s!"instruction #{instruction} jumps to label '{target}' which has no instruction after it"
  | illegal _ mnemonic cause => s!"illegal instruction '{mnemonic}': {cause.message}"
  | returnMismatch _ declared actual =>
    s!"return type mismatch: method returns {declared.text} but instruction returns {actual.text}"
  | unknownLocal _ reference mnemonic =>
    s!"unknown local variable '{reference.text}' in '{mnemonic}'"
  | localMismatch instruction _ index expected actual =>
    s!"instruction #{instruction} expected local {index.toNat} to hold {expected.text} but found {actual.text}"
  | duplicateLabel name _ => s!"label '{name}' is already declared"
  | fallsOffEnd _ _ => "execution can fall off the end of the code"
  | badDescriptor _ text cause => s!"bad descriptor '{text}': {cause.message}"
  | poolOverflow overflow =>
    s!"constant pool overflow at offset {overflow.offset} adding {overflow.entry.text}"
  | outOfRange instruction _ cause =>
    s!"instruction #{instruction} cannot be encoded: {cause.message}"
  | encoding cause => s!"I/O error: {cause.message}"

/-- The error as it is reported: place and message. -/
def diagnostic (e : CompileError) : String := s!"{(e.position?.getD {}).text}: {e.message}"

end CompileError

/-- Work that can fail and keeps its state where it fails. -/
abbrev Assembly (σ : Type) := EStateM CompileError σ

instance {σ : Type} : MonadLift (Except CompileError) (Assembly σ) where
  monadLift x s :=
    match x with
    | .ok a => .ok a s
    | .error e => .error e s

namespace Assembly

variable {σ α : Type}

/-- Does the work come to its end? -/
def succeeds (x : Assembly σ α) (s : σ) : Bool :=
  match x s with
  | .ok _ _ => true
  | .error _ _ => false

theorem exists_of_succeeds {x : Assembly σ α} {s : σ} (h : succeeds x s = true) :
    ∃ a s', x s = .ok a s' := by
  unfold succeeds at h
  split at h
  · rename_i a s' hx
    exact ⟨a, s', hx⟩
  · cases h

end Assembly

end JvmAssembler
