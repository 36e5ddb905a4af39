import JvmAssembler.Evaluate.Operand
import JvmAssembler.Instruction.Effect
import JvmAssembler.Local

/-! Evaluation of loads and stores. -/

namespace JvmAssembler.Evaluate

/-- The type of a local that is declared by a store of a kind. -/
def defaultType : ValueKind → FieldType
  | .numeric .int => .int
  | .numeric .long => .long
  | .numeric .float => .float
  | .numeric .double => .double
  | .reference => .object .javaObject

/-- The local that the mnemonic or the operand names. -/
def localReference (insn : WrittenInstruction) : Option UInt16 → Except CompileError LocalRef
  | some index => do
    insn.expectOperands 0
    return .index index
  | none => do
    insn.expectOperands 1
    insn.localRef 0

/-- The form of a load or store. The word `wide` is never implied. -/
def localForm (insn : WrittenInstruction) (found : Local) (kind : ValueKind) (short : Bool) :
    Except CompileError LocalForm := do
  if found.index.toNat + kind.width > maxLocals then
    throw (insn.illegal (.slotTooHigh insn.mnemonic found.index.toNat))
  if short then
    insn.rejectWide
    return .implicit
  else if insn.wide then return .wide
  else if found.requiresWide then
    throw (insn.illegal (.indexNeedsWide found.index.toNat insn.mnemonic))
  else return .narrow

def load (insn : WrittenInstruction) (kind : ValueKind) (index : Option UInt16) :
    LocalM SymbolicOperation := do
  let reference ← localReference insn index
  let found ←
    if index.isSome then (← get).table.resolve reference insn.mnemonic insn.position
    else LocalM.resolveLoad reference insn
  let form ← localForm insn found kind index.isSome
  return .load kind found.index form

def store (insn : WrittenInstruction) (kind : ValueKind) (index : Option UInt16) :
    LocalM SymbolicOperation := do
  let reference ← localReference insn index
  let found ← LocalM.resolveStore reference insn (defaultType kind)
  let form ← localForm insn found kind index.isSome
  return .store kind found.index form

/-- In the narrow form, index and amount take one byte each. -/
def checkNarrowIncrement (insn : WrittenInstruction) (found : Local) (amount : Int16) :
    Except CompileError Unit := do
  if found.requiresWide then
    throw (insn.illegal (.indexNeedsWide found.index.toNat "iinc"))
  unless -128 ≤ amount ∧ amount ≤ 127 do
    throw (insn.illegal (.amountNeedsWide amount.toInt))

def increment (insn : WrittenInstruction) : LocalM SymbolicOperation := do
  insn.expectOperands 2
  let found ← (← get).table.resolve (← insn.localRef 0) insn.mnemonic insn.position
  let amount ← insn.int16 1 "increment"
  unless insn.wide do checkNarrowIncrement insn found amount
  return .increment found.index amount insn.wide

end JvmAssembler.Evaluate
