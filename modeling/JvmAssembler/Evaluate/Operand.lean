import JvmAssembler.Error

/-! Access to operands by position and kind. What is missing or of the wrong kind is an error of the
instruction. -/

namespace JvmAssembler.WrittenInstruction

/-- An error of the instruction. -/
def illegal (insn : WrittenInstruction) (cause : IllegalCause) : CompileError :=
  .illegal insn.position insn.mnemonic cause

def expectOperands (insn : WrittenInstruction) (count : Nat) : Except CompileError Unit :=
  if insn.operands.size = count then .ok ()
  else .error (insn.illegal (.operandCount count insn.operands.size))

/-- Refuses the word `wide` in front. -/
def rejectWide (insn : WrittenInstruction) : Except CompileError Unit :=
  if insn.wide then .error (insn.illegal .noWideForm) else .ok ()

/-- A given number of operands, and no word `wide` in front. -/
def expectPlain (insn : WrittenInstruction) (count : Nat) : Except CompileError Unit := do
  insn.rejectWide
  insn.expectOperands count

def operand (insn : WrittenInstruction) (index : Nat) : Except CompileError Operand :=
  match insn.operands[index]? with
  | some operand => .ok operand
  | none => .error (insn.illegal (.missingOperand index))

/-- An operand that a partial function on operands takes. -/
def operandOf {α : Type} (insn : WrittenInstruction) (index : Nat) (expected : OperandKind)
    (get? : Operand → Option α) : Except CompileError α := do
  let found ← insn.operand index
  match get? found with
  | some value => .ok value
  | none => .error (insn.illegal (.operandKind index expected found.kind))

def number (insn : WrittenInstruction) (index : Nat) : Except CompileError Int64 :=
  insn.operandOf index .number fun
    | .number value => some value
    | _ => none

/-- A number between two bounds; `what` says what it is for. -/
def integer (insn : WrittenInstruction) (low high : Int) (index : Nat) (what : String) :
    Except CompileError Int := do
  let value := (← insn.number index).toInt
  if low ≤ value ∧ value ≤ high then .ok value else .error (insn.illegal (.outOfRange what value))

def int8 (insn : WrittenInstruction) (index : Nat) (what : String) : Except CompileError Int8 :=
  (insn.integer (-128) 127 index what).map Int8.ofInt

def uint8 (insn : WrittenInstruction) (index : Nat) (what : String) : Except CompileError UInt8 :=
  (insn.integer 0 255 index what).map fun n => UInt8.ofNat n.toNat

def int16 (insn : WrittenInstruction) (index : Nat) (what : String) : Except CompileError Int16 :=
  (insn.integer (-32768) 32767 index what).map Int16.ofInt

def uint16 (insn : WrittenInstruction) (index : Nat) (what : String) : Except CompileError UInt16 :=
  (insn.integer 0 65535 index what).map fun n => UInt16.ofNat n.toNat

def int32 (insn : WrittenInstruction) (index : Nat) (what : String) : Except CompileError Int32 :=
  (insn.integer (-2147483648) 2147483647 index what).map Int32.ofInt

def localRef (insn : WrittenInstruction) (index : Nat) : Except CompileError LocalRef :=
  insn.operandOf index .localVar fun
    | .localVar reference => some reference
    | _ => none

def label (insn : WrittenInstruction) (index : Nat) : Except CompileError String :=
  insn.operandOf index .label fun
    | .label name => some name
    | _ => none

def typeName (insn : WrittenInstruction) (index : Nat) : Except CompileError String :=
  insn.operandOf index .type fun
    | .type name => some name
    | _ => none

def member (insn : WrittenInstruction) (index : Nat) : Except CompileError MemberRef :=
  insn.operandOf index .member fun
    | .member member => some member
    | _ => none

end JvmAssembler.WrittenInstruction
