/-! Every number of a class file is written most significant byte first, in two's complement when it
is signed. -/

namespace JvmAssembler.Bytes

/-- The `width` low bytes of `n`, most significant first. -/
def bigEndian : (width n : Nat) → List UInt8
  | 0, _ => []
  | width + 1, n => UInt8.ofNat (n >>> (8 * width)) :: bigEndian width n

def ofUInt8 (n : UInt8) : List UInt8 := [n]

def ofInt8 (n : Int8) : List UInt8 := [n.toUInt8]

def ofUInt16 (n : UInt16) : List UInt8 := bigEndian 2 n.toNat

def ofInt16 (n : Int16) : List UInt8 := ofUInt16 n.toUInt16

def ofUInt32 (n : UInt32) : List UInt8 := bigEndian 4 n.toNat

def ofInt32 (n : Int32) : List UInt8 := ofUInt32 n.toUInt32

def ofUInt64 (n : UInt64) : List UInt8 := bigEndian 8 n.toNat

def ofInt64 (n : Int64) : List UInt8 := ofUInt64 n.toUInt64

/-- A 16-bit count, then the items. The count of a longer list is taken modulo `65536`. -/
def counted (items : List (List UInt8)) : List UInt8 :=
  ofUInt16 (UInt16.ofNat items.length) ++ items.flatten

/-- The natural number that bytes spell, most significant first. -/
def toNat (bytes : List UInt8) : Nat :=
  bytes.foldl (fun n byte => 256 * n + byte.toNat) 0

@[simp] theorem length_bigEndian (width n : Nat) : (bigEndian width n).length = width := by
  induction width with
  | zero => rfl
  | succ width ih => simp [bigEndian, ih]

@[simp] theorem length_ofUInt16 (n : UInt16) : (ofUInt16 n).length = 2 := length_bigEndian 2 _

@[simp] theorem length_ofUInt32 (n : UInt32) : (ofUInt32 n).length = 4 := length_bigEndian 4 _

@[simp] theorem length_ofUInt64 (n : UInt64) : (ofUInt64 n).length = 8 := length_bigEndian 8 _

end JvmAssembler.Bytes
