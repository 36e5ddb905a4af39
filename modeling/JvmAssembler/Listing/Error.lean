import JvmAssembler.Name
import JvmAssembler.Source.Position

/-! What can be wrong with a listing, and how it is told. -/

namespace JvmAssembler

/-- Why a listing cannot be read. -/
inductive ListingCause where
  | unterminatedString
  | unknownEscape
  /-- Nothing follows the word `wide`. -/
  | wideAlone
  | declarationForm
  | classForm
  | className (cause : NameError)
  /-- A method starts before the one before is closed. -/
  | methodInMethod
  | methodBeforeClass
  | methodForm
  | unknownFlag (word : String)
  | noDescriptor
  | endOutside
  | instructionOutside
  /-- The listing ends before a method is closed. -/
  | methodNotClosed (name : String)
deriving DecidableEq, Repr

def ListingCause.message : ListingCause → String
  | unterminatedString => "unterminated string"
  | unknownEscape => "unknown escape sequence"
  | wideAlone => "`wide` must be followed by an instruction"
  | declarationForm => "expected `-> name` or `-> name:Type`"
  | classForm => "expected `.class <name>`"
  | className cause => cause.message
  | methodInMethod => "missing `.end` for the previous method"
  | methodBeforeClass => "`.method` before any `.class`"
  | methodForm => "expected `.method <flags> <name><descriptor>`"
  | unknownFlag word => s!"unknown access flag `{word}`"
  | noDescriptor => "method signature has no descriptor"
  | endOutside => "`.end` outside of a method"
  | instructionOutside => "instruction outside of a method"
  | methodNotClosed name => s!"method `{name}` has no `.end`"

structure ListingError where
  position : Position
  cause : ListingCause
deriving DecidableEq, Repr

namespace ListingError

def message (e : ListingError) : String := e.cause.message

/-- The error as it is reported: place and message. -/
def diagnostic (e : ListingError) : String := s!"{e.position.text}: {e.message}"

end ListingError

end JvmAssembler
