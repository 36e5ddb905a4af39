import JvmAssembler.Evaluate.Operand
import JvmAssembler.Instruction.Effect
import JvmAssembler.Label

/-! Jumps, switches and returns. Targets are looked up among the labels of the method. -/

namespace JvmAssembler.Evaluate

/-- What an instruction can see of its method. -/
structure Scope where
  returns : ReturnType
  labels : LabelTable
  /-- The number of the instruction. -/
  instruction : Nat

/-- The label that an operand names. -/
def target (scope : Scope) (insn : WrittenInstruction) (index : Nat) : Except CompileError Nat := do
  let name ← insn.label index
  match scope.labels.lookup? name with
  | some label => return label
  | none => throw (.unknownJump scope.instruction insn.position name none)

/-- What a return instruction returns. -/
def returned : Option ValueKind → ReturnType
  | none => .void
  | some (.numeric .int) => .value .int
  | some (.numeric .long) => .value .long
  | some (.numeric .float) => .value .float
  | some (.numeric .double) => .value .double
  | some .reference => .anyReference

def returnFrom (scope : Scope) (insn : WrittenInstruction) (kind : Option ValueKind) :
    Except CompileError SymbolicBranch := do
  insn.expectPlain 0
  if scope.returns.accepts (returned kind) then return .returns kind
  else throw (.returnMismatch insn.position scope.returns (returned kind))

def jump (scope : Scope) (insn : WrittenInstruction) (op : Jump) :
    Except CompileError SymbolicBranch := do
  insn.expectPlain 1
  return .jump op (← target scope insn 0)

/-- Written `tableswitch low target... default`. -/
def tableSwitch (scope : Scope) (insn : WrittenInstruction) : Except CompileError SymbolicBranch := do
  insn.rejectWide
  let low ← insn.int32 0 "low key"
  let count := insn.operands.size
  if count < 3 then throw (insn.illegal .tableTooShort)
  let targets ← (List.range' 1 (count - 2)).mapM (target scope insn)
  let default ← target scope insn (count - 1)
  if low.toInt + (targets.length - 1) > 2147483647 then throw (insn.illegal .tableTooLong)
  return .tableSwitch default low targets

/-- A key and its target, from the operand that is the key. -/
def keyedTarget (scope : Scope) (insn : WrittenInstruction) (index : Nat) :
    Except CompileError (Int32 × Nat) := do
  match ← insn.operand index with
  | .number _ =>
    let key ← insn.int32 index "key"
    return (key, ← target scope insn (index + 1))
  | _ => throw (insn.illegal (.notKey index))

/-- The first key that stands twice in a row. -/
def repeatedKey? : List (Int32 × Nat) → Option Int32
  | a :: b :: rest => if a.1 = b.1 then some a.1 else repeatedKey? (b :: rest)
  | _ => none

/-- Written `lookupswitch (key target)... default`, with keys in any order but distinct. -/
def lookupSwitch (scope : Scope) (insn : WrittenInstruction) :
    Except CompileError SymbolicBranch := do
  insn.rejectWide
  let count := insn.operands.size
  if count % 2 = 0 then throw (insn.illegal .unpairedKeys)
  let targets ← (List.range (count / 2)).mapM fun i => keyedTarget scope insn (2 * i)
  let default ← target scope insn (count - 1)
  let sorted := targets.mergeSort fun a b => a.1 ≤ b.1
  match repeatedKey? sorted with
  | some key => throw (insn.illegal (.repeatedKey key))
  | none => return .lookupSwitch default sorted

end JvmAssembler.Evaluate
