import JvmAssembler.Instruction.Encode
import JvmAssembler.StackMap.Entry

/-! The bytes of resolved verification types and entries. Entries with a small distance from the one
before hold it in their tag. -/

namespace JvmAssembler

def ResolvedType.bytes : ResolvedType → List UInt8
  | .top => [0]
  | .numeric .int => [1]
  | .numeric .float => [2]
  | .numeric .double => [3]
  | .numeric .long => [4]
  | .null => [5]
  | .uninitializedThis => [6]
  | .object index => 7 :: Bytes.ofUInt16 index
  | .uninitialized offset => 8 :: Bytes.ofUInt16 offset

namespace MapEntry

def encode : MapEntry ResolvedType → Except EncodeError (List UInt8)
  | same delta => .ok (if delta ≤ 63 then [delta.toUInt8] else 251 :: Bytes.ofUInt16 delta)
  | oneStack delta stack =>
    .ok ((if delta ≤ 63 then [delta.toUInt8 + 64] else 247 :: Bytes.ofUInt16 delta)
      ++ ResolvedType.bytes stack)
  | chop delta count =>
    if 1 ≤ count ∧ count ≤ 3 then .ok (UInt8.ofNat (251 - count) :: Bytes.ofUInt16 delta)
    else .error (.chop count)
  | append delta locals =>
    let count := locals.length
    if 1 ≤ count ∧ count ≤ 3 then
      .ok (UInt8.ofNat (251 + count) :: Bytes.ofUInt16 delta ++ locals.flatMap ResolvedType.bytes)
    else .error (.append count)
  | full delta locals stack =>
    .ok (255 :: Bytes.ofUInt16 delta ++ Bytes.counted (locals.map ResolvedType.bytes)
      ++ Bytes.counted (stack.map ResolvedType.bytes))

end MapEntry

end JvmAssembler
