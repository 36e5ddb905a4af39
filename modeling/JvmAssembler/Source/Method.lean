import JvmAssembler.AccessFlags
import JvmAssembler.Name
import JvmAssembler.Source.Instruction

/-! Methods as they stand in a listing. -/

namespace JvmAssembler

inductive Statement where
  | label (name : String) (position : Position)
  | instruction (instruction : WrittenInstruction)
deriving DecidableEq, Repr

/-- A method as it stands in a listing. -/
structure WrittenMethod where
  owner : BinaryName
  flags : AccessFlags
  name : String
  descriptor : String
  position : Position
  body : List Statement

namespace WrittenMethod

def isStatic (m : WrittenMethod) : Bool := m.flags.contains .isStatic

/-- The instructions of the body. -/
def instructions (m : WrittenMethod) : List WrittenInstruction :=
  m.body.filterMap fun
    | .label _ _ => none
    | .instruction insn => some insn

end WrittenMethod

end JvmAssembler
