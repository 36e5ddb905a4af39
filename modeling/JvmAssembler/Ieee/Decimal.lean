import JvmAssembler.Ieee.Format
import JvmAssembler.Text.Numeral

/-! A decimal has digits, optionally a point and more digits, and optionally an exponent. It stands
for the double precision number nearest to its value. -/

namespace JvmAssembler.Ieee

/-- The value `digits * 10 ^ exponent`. -/
structure Decimal where
  digits : Nat
  exponent : Int
deriving DecidableEq, Repr

/-- The bits of a decimal in a format. Its value is at least `10 ^ (exponent + size / 4)` and below
`10 ^ (exponent + size / 3 + 1)`. Powers of ten far beyond the format's range are not formed. -/
def Format.ofDecimal (f : Format) (d : Decimal) : Nat :=
  let size := d.digits.log2
  if d.digits = 0 ∨ d.exponent + (size / 3 + 1 : Nat) < -(1 <<< f.exponent : Nat) then 0
  else if (1 <<< f.exponent : Nat) < d.exponent + (size / 4 : Nat) then f.infinity
  else f.ofQuotient (d.digits * Nat.pow 10 d.exponent.toNat) (Nat.pow 10 (-d.exponent).toNat)

/-- The value of an exponent without a sign. Once it has passed 65535 the digits that follow do not
count, so it stays small however long it is. -/
def readMagnitude? (digits : List Char) : Option Nat :=
  if !digits.isEmpty && digits.all Char.isDigit then
    some (digits.foldl (fun n c => if n < 65536 then 10 * n + (c.toNat - 48) else n) 0)
  else none

/-- The exponent part of a decimal: a letter `e` in either case, an optional sign, digits. -/
def readExponent? : List Char → Option Int
  | [] => some 0
  | mark :: rest =>
    if mark = 'e' ∨ mark = 'E' then
      match rest with
      | '-' :: digits => (readMagnitude? digits).map fun n => -(n : Int)
      | '+' :: digits => (readMagnitude? digits).map Int.ofNat
      | digits => (readMagnitude? digits).map Int.ofNat
    else none

/-- A decimal without a sign. One digit at least stands before or after the point. -/
def readDecimal? (text : List Char) : Option Decimal :=
  let whole := text.takeWhile Char.isDigit
  let (places, rest) := match text.dropWhile Char.isDigit with
    | '.' :: more => (more.takeWhile Char.isDigit, more.dropWhile Char.isDigit)
    | rest => ([], rest)
  match Text.readNat? 10 (whole ++ places), readExponent? rest with
  | some digits, some exponent => some ⟨digits, exponent - places.length⟩
  | _, _ => none

/-- The bits of a decimal in double precision, a minus sign in front being allowed. -/
def readDouble? (text : List Char) : Option UInt64 :=
  match text with
  | '-' :: rest =>
    (readDecimal? rest).map fun d => UInt64.ofNat (double.signBit + double.ofDecimal d)
  | _ => (readDecimal? text).map fun d => UInt64.ofNat (double.ofDecimal d)

end JvmAssembler.Ieee
