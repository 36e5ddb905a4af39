import JvmAssembler.Instruction.Effect
import JvmAssembler.Label

/-! The instructions of a method with their offsets in code and the blocks that they belong to. -/

namespace JvmAssembler

/-- An instruction at its place. -/
structure Line where
  /-- The number of the instruction. -/
  id : Nat
  mnemonic : String
  position : Position
  /-- Bytes of code before the instruction. -/
  offset : Nat
  /-- The label of the block that the instruction is part of. -/
  block : Nat
  instruction : SymbolicInstruction

namespace Line

/-- Number of bytes in code. -/
def size (line : Line) : Nat := line.instruction.sizeAt line.offset

/-- The offset of the next instruction. -/
def stop (line : Line) : Nat := line.offset + line.size

/-- Labels that the instruction jumps to. -/
def targets (line : Line) : List Nat := (line.instruction.branch?.map Branch.targets).getD []

end Line

structure Body where
  lines : Array Line
  labels : LabelTable

namespace Body

/-- The offset in code of the instruction after a label. -/
def labelOffset? (body : Body) (label : Nat) : Option Nat :=
  body.lines[(body.labels.get label).instruction]?.map Line.offset

end Body

end JvmAssembler
