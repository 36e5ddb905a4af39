import JvmAssembler.Bytes
import JvmAssembler.Instruction.Basic

/-! The bytes of resolved instructions, whose constants are indices of the pool and whose targets
are offsets relative to the instruction. -/

namespace JvmAssembler

/-- Parts of an instruction that take fewer values than their type has. -/
inductive EncodedPart where
  | intConst | longConst | floatConst | doubleConst
  | ldcIndex
  | implicitLocal | narrowLocal
  | incrementIndex | incrementAmount
  | branchOffset
deriving DecidableEq, Repr

def EncodedPart.name : EncodedPart → String
  | intConst => "iconst"
  | longConst => "lconst"
  | floatConst => "fconst"
  | doubleConst => "dconst"
  | ldcIndex => "ldc index"
  | implicitLocal => "implicit local index"
  | narrowLocal => "narrow local index"
  | incrementIndex => "iinc index"
  | incrementAmount => "iinc increment"
  | branchOffset => "branch offset"

/-- Why a value has no encoding. -/
inductive EncodeError where
  | outOfRange (part : EncodedPart) (value : Int)
  | notIntegral (kind : NumericKind)
  | noConversion (kind : NumericKind)
  /-- A stack map entry cannot drop so many locals. -/
  | chop (count : Nat)
  /-- A stack map entry cannot add so many locals. -/
  | append (count : Nat)
deriving DecidableEq, Repr

namespace EncodeError

def message : EncodeError → String
  | outOfRange part value => s!"{part.name} {value} cannot be encoded"
  | notIntegral kind => s!"{kind.name} is not an integral kind"
  | noConversion kind => s!"No conversion from {kind.name} to itself"
  | chop count => s!"chop frame cannot chop {count} locals"
  | append count => s!"append frame cannot add {count} locals"

/-- Is there no such instruction, whatever its operands? -/
def isUnsupported : EncodeError → Bool
  | notIntegral _ | noConversion _ => true
  | _ => false

end EncodeError

namespace Operation

/-- A small constant in the opcode. -/
def encodeConst (part : EncodedPart) (base limit n : UInt8) : Except EncodeError (List UInt8) :=
  if n ≤ limit then .ok [base + n] else .error (.outOfRange part n.toNat)

/-- A load or store, from the opcode for the index 0 and the opcode with an explicit index. -/
def encodeLocal (implicit explicit : UInt8) (index : UInt16) :
    LocalForm → Except EncodeError (List UInt8)
  | .implicit =>
    if index < 4 then .ok [implicit + index.toUInt8]
    else .error (.outOfRange .implicitLocal index.toNat)
  | .narrow =>
    if index < 256 then .ok [explicit, index.toUInt8]
    else .error (.outOfRange .narrowLocal index.toNat)
  | .wide => .ok (0xC4 :: explicit :: Bytes.ofUInt16 index)

/-- The place of an integral kind in its family. -/
def integralRank : NumericKind → Except EncodeError UInt8
  | .int => .ok 0
  | .long => .ok 1
  | kind => .error (.notIntegral kind)

def convertOpcode : (source target : NumericKind) → Except EncodeError UInt8
  | .int, .long => .ok 0x85
  | .int, .float => .ok 0x86
  | .int, .double => .ok 0x87
  | .long, .int => .ok 0x88
  | .long, .float => .ok 0x89
  | .long, .double => .ok 0x8A
  | .float, .int => .ok 0x8B
  | .float, .long => .ok 0x8C
  | .float, .double => .ok 0x8D
  | .double, .int => .ok 0x8E
  | .double, .long => .ok 0x8F
  | .double, .float => .ok 0x90
  | kind, _ => .error (.noConversion kind)

def encode : Operation UInt16 → Except EncodeError (List UInt8)
  | nop => .ok [0x00]
  | nullConst => .ok [0x01]
  | intConst n =>
    if -1 ≤ n ∧ n ≤ 5 then .ok [0x03 + n.toUInt8] else .error (.outOfRange .intConst n.toInt)
  | longConst n => encodeConst .longConst 0x09 1 n
  | floatConst n => encodeConst .floatConst 0x0B 2 n
  | doubleConst n => encodeConst .doubleConst 0x0E 1 n
  | bytePush n => .ok (0x10 :: Bytes.ofInt8 n)
  | shortPush n => .ok (0x11 :: Bytes.ofInt16 n)
  | ldc .narrow index =>
    if index < 256 then .ok [0x12, index.toUInt8] else .error (.outOfRange .ldcIndex index.toNat)
  | ldc .wide index => .ok (0x13 :: Bytes.ofUInt16 index)
  | ldc .double index => .ok (0x14 :: Bytes.ofUInt16 index)
  | load kind index form => encodeLocal (0x1A + 4 * kind.rank) (0x15 + kind.rank) index form
  | store kind index form => encodeLocal (0x3B + 4 * kind.rank) (0x36 + kind.rank) index form
  | increment index amount false =>
    if index < 256 then
      if -128 ≤ amount ∧ amount ≤ 127 then .ok [0x84, index.toUInt8, amount.toInt8.toUInt8]
      else .error (.outOfRange .incrementAmount amount.toInt)
    else .error (.outOfRange .incrementIndex index.toNat)
  | increment index amount true =>
    .ok (0xC4 :: 0x84 :: Bytes.ofUInt16 index ++ Bytes.ofInt16 amount)
  | arrayLoad kind => .ok [0x2E + kind.rank]
  | arrayStore kind => .ok [0x4F + kind.rank]
  | stack op => .ok [0x57 + op.rank]
  | arithmetic kind op => .ok [0x60 + 4 * op.rank + kind.rank]
  | negate kind => .ok [0x74 + kind.rank]
  | shift kind op => (integralRank kind).map fun rank => [0x78 + 2 * op.rank + rank]
  | bitwise kind op => (integralRank kind).map fun rank => [0x7E + 2 * op.rank + rank]
  | convert source target => (convertOpcode source target).map fun opcode => [opcode]
  | narrowInt .byte => .ok [0x91]
  | narrowInt .char => .ok [0x92]
  | narrowInt .short => .ok [0x93]
  | compareLongs => .ok [0x94]
  | compareFloats .less => .ok [0x95]
  | compareFloats .greater => .ok [0x96]
  | compareDoubles .less => .ok [0x97]
  | compareDoubles .greater => .ok [0x98]
  | field access index => .ok ((0xB2 + access.rank) :: Bytes.ofUInt16 index)
  | invoke .virtual index => .ok (0xB6 :: Bytes.ofUInt16 index)
  | invoke .special index => .ok (0xB7 :: Bytes.ofUInt16 index)
  | invoke .static index => .ok (0xB8 :: Bytes.ofUInt16 index)
  | invoke (.interface count) index => .ok (0xB9 :: Bytes.ofUInt16 index ++ [count, 0])
  | classUse .new index => .ok (0xBB :: Bytes.ofUInt16 index)
  | newArray element => .ok [0xBC, element.arrayCode]
  | classUse .newArray index => .ok (0xBD :: Bytes.ofUInt16 index)
  | arrayLength => .ok [0xBE]
  | classUse .checkCast index => .ok (0xC0 :: Bytes.ofUInt16 index)
  | classUse .instanceOf index => .ok (0xC1 :: Bytes.ofUInt16 index)
  | monitorEnter => .ok [0xC2]
  | monitorExit => .ok [0xC3]
  | multiArray index dimensions => .ok (0xC5 :: Bytes.ofUInt16 index ++ [dimensions])

end Operation

/-- The opcode of a jump. -/
def Jump.opcode : Jump → UInt8
  | ifZero comparison => 0x99 + comparison.rank
  | ifInts comparison => 0x9F + comparison.rank
  | ifReferences comparison => 0xA5 + comparison.rank
  | goto => 0xA7
  | ifNull comparison => 0xC6 + comparison.rank
  | gotoWide => 0xC8

namespace Branch

/-- The bytes of a branch at an offset. The largest key of a table is computed modulo 2^32. -/
def encodeAt (offset : Nat) : Branch Int32 → Except EncodeError (List UInt8)
  | jump .gotoWide target => .ok (Jump.gotoWide.opcode :: Bytes.ofInt32 target)
  | jump op target =>
    if -32768 ≤ target ∧ target ≤ 32767 then .ok (op.opcode :: Bytes.ofInt16 target.toInt16)
    else .error (.outOfRange .branchOffset target.toInt)
  | tableSwitch default low targets =>
    .ok (0xAA :: List.replicate (switchPadding offset) 0 ++ Bytes.ofInt32 default
      ++ Bytes.ofInt32 low ++ Bytes.ofInt32 (low + Int32.ofNat targets.length - 1)
      ++ targets.flatMap Bytes.ofInt32)
  | lookupSwitch default targets =>
    .ok (0xAB :: List.replicate (switchPadding offset) 0 ++ Bytes.ofInt32 default
      ++ Bytes.ofInt32 (Int32.ofNat targets.length)
      ++ targets.flatMap fun (key, target) => Bytes.ofInt32 key ++ Bytes.ofInt32 target)
  | returns (some kind) => .ok [0xAC + kind.rank]
  | returns none => .ok [0xB1]
  | throws => .ok [0xBF]

end Branch

/-- The bytes of an instruction at an offset. -/
def Instruction.encodeAt (offset : Nat) : Instruction UInt16 Int32 → Except EncodeError (List UInt8)
  | operation op => op.encode
  | branch b => b.encodeAt offset

end JvmAssembler
