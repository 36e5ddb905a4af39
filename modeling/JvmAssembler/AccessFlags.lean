import JvmAssembler.Bytes

/-! Each flag has a keyword in listings and a bit in the class file. -/

namespace JvmAssembler

inductive AccessFlag where
  | isPublic | isPrivate | isProtected | isStatic | isFinal | isSynchronized | isBridge | isVarargs
  | isNative | isAbstract | isStrict | isSynthetic
deriving DecidableEq, Repr

namespace AccessFlag

def mask : AccessFlag → UInt16
  | isPublic => 0x0001
  | isPrivate => 0x0002
  | isProtected => 0x0004
  | isStatic => 0x0008
  | isFinal => 0x0010
  | isSynchronized => 0x0020
  | isBridge => 0x0040
  | isVarargs => 0x0080
  | isNative => 0x0100
  | isAbstract => 0x0400
  | isStrict => 0x0800
  | isSynthetic => 0x1000

def ofKeyword? : String → Option AccessFlag
  | "public" => some isPublic
  | "private" => some isPrivate
  | "protected" => some isProtected
  | "static" => some isStatic
  | "final" => some isFinal
  | "synchronized" => some isSynchronized
  | "bridge" => some isBridge
  | "varargs" => some isVarargs
  | "native" => some isNative
  | "abstract" => some isAbstract
  | "strictfp" => some isStrict
  | "synthetic" => some isSynthetic
  | _ => none

end AccessFlag

/-- A set of flags, one bit each. -/
structure AccessFlags where
  bits : UInt16
deriving DecidableEq, Repr

namespace AccessFlags

def empty : AccessFlags := ⟨0⟩

instance : Inhabited AccessFlags := ⟨empty⟩

def insert (flags : AccessFlags) (flag : AccessFlag) : AccessFlags := ⟨flags.bits ||| flag.mask⟩

def contains (flags : AccessFlags) (flag : AccessFlag) : Bool := flags.bits &&& flag.mask != 0

def ofList (flags : List AccessFlag) : AccessFlags := flags.foldl insert empty

def bytes (flags : AccessFlags) : List UInt8 := Bytes.ofUInt16 flags.bits

end AccessFlags

end JvmAssembler
