/-! Places in a listing. -/

namespace JvmAssembler

/-- A place in a listing. Lines and columns count from one; all is zero where no place is known. -/
structure Position where
  line : Nat := 0
  column : Nat := 0
  /-- Bytes before the place. -/
  offset : Nat := 0
deriving DecidableEq, Repr, Inhabited

def Position.text (p : Position) : String := s!"{p.line}:{p.column}"

end JvmAssembler
