/-! The text encoding of class files. It differs from UTF-8 in two ways: the null character takes
two bytes, and a supplementary character is written as its two surrogates, three bytes each. -/

namespace JvmAssembler.ModifiedUtf8

/-- The two-byte form of a code unit below 2^11. -/
def twoBytes (n : Nat) : List UInt8 :=
  [UInt8.ofNat (0xC0 + n / 64), UInt8.ofNat (0x80 + n % 64)]

/-- The three-byte form of a code unit below 2^16. -/
def threeBytes (n : Nat) : List UInt8 :=
  [UInt8.ofNat (0xE0 + n / 4096), UInt8.ofNat (0x80 + n / 64 % 64), UInt8.ofNat (0x80 + n % 64)]

def encodeChar (c : Char) : List UInt8 :=
  let n := c.toNat
  if n = 0 then twoBytes n
  else if n < 0x80 then [UInt8.ofNat n]
  else if n < 0x800 then twoBytes n
  else if n < 0x10000 then threeBytes n
  else threeBytes (0xD800 + (n - 0x10000) / 0x400) ++ threeBytes (0xDC00 + (n - 0x10000) % 0x400)

def encode (text : String) : List UInt8 := text.toList.flatMap encodeChar

end JvmAssembler.ModifiedUtf8
