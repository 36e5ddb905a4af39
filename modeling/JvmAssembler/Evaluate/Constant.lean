import JvmAssembler.Evaluate.Object
import JvmAssembler.Ieee.Format

/-! Evaluation of instructions that push constants. -/

namespace JvmAssembler.Evaluate

def bytePush (insn : WrittenInstruction) : Except CompileError SymbolicOperation := do
  insn.expectPlain 1
  return .bytePush (← insn.int8 0 "byte value")

def shortPush (insn : WrittenInstruction) : Except CompileError SymbolicOperation := do
  insn.expectPlain 1
  return .shortPush (← insn.int16 0 "short value")

/-- The constant that an operand stands for. The form tells numbers of one slot from those of two. -/
def constant (insn : WrittenInstruction) : LdcForm → Operand → Except CompileError Constant
  | .double, .number value => .ok (.long value)
  | .double, .decimal bits => .ok (.double bits)
  | .double, _ => .error (insn.illegal .notWideConstant)
  | _, .number _ => (insn.int32 0 "int constant").map .integer
  | _, .decimal bits => .ok (.float (Ieee.narrow bits))
  | _, .text text => .ok (.string text)
  | _, .type name => (classType insn name).map .classRef
  | _, _ => .error (insn.illegal .notLdcConstant)

def ldc (insn : WrittenInstruction) (form : LdcForm) : Except CompileError SymbolicOperation := do
  insn.expectPlain 1
  return .ldc form (← constant insn form (← insn.operand 0))

end JvmAssembler.Evaluate
