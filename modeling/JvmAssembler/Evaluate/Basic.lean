import JvmAssembler.Evaluate.Constant
import JvmAssembler.Evaluate.Control
import JvmAssembler.Evaluate.Local
import JvmAssembler.Mnemonic

/-! The instruction that a written one stands for: its mnemonic gives a template, and its operands
are checked and filled in. -/

namespace JvmAssembler

namespace Template

open Evaluate in
/-- Fills in the operands of a written instruction. -/
def evaluate (scope : Scope) (insn : WrittenInstruction) : Template → LocalM SymbolicInstruction
  | plain instruction => do
    insn.expectPlain 0
    return .ofPlain instruction
  | returns kind => return .branch (← returnFrom scope insn kind)
  | bytePush => return .operation (← Evaluate.bytePush insn)
  | shortPush => return .operation (← Evaluate.shortPush insn)
  | ldc form => return .operation (← Evaluate.ldc insn form)
  | load kind index => return .operation (← Evaluate.load insn kind index)
  | store kind index => return .operation (← Evaluate.store insn kind index)
  | increment => return .operation (← Evaluate.increment insn)
  | field access => return .operation (← Evaluate.field insn access)
  | invoke kind => return .operation (← Evaluate.invoke insn kind)
  | classUse action => return .operation (← Evaluate.classUse insn action)
  | newArray => return .operation (← Evaluate.newArray insn)
  | multiArray => return .operation (← Evaluate.multiArray insn)
  | jump op => return .branch (← Evaluate.jump scope insn op)
  | tableSwitch => return .branch (← Evaluate.tableSwitch scope insn)
  | lookupSwitch => return .branch (← Evaluate.lookupSwitch scope insn)

end Template

/-- The instruction that a written one stands for. -/
def WrittenInstruction.evaluate (insn : WrittenInstruction) (scope : Evaluate.Scope) :
    LocalM SymbolicInstruction :=
  match Template.ofMnemonic? insn.mnemonic with
  | some template => template.evaluate scope insn
  | none => throw (insn.illegal .unknownMnemonic)

end JvmAssembler
