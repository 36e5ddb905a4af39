/-! Reading of unsigned and signed numerals in a base up to sixteen, and numerals padded to a width.
A numeral has at least one digit and may have leading zeros. -/

namespace JvmAssembler.Text

/-- The value of a digit in bases up to sixteen, letters in either case. -/
def digitValue? (c : Char) : Option Nat :=
  if '0' ≤ c ∧ c ≤ '9' then some (c.toNat - 48)
  else if 'a' ≤ c ∧ c ≤ 'f' then some (c.toNat - 87)
  else if 'A' ≤ c ∧ c ≤ 'F' then some (c.toNat - 55)
  else none

/-- The value of a digit in a base. -/
def digit? (base : Nat) (c : Char) : Option Nat := (digitValue? c).filter (· < base)

/-- Digits are gathered into groups as long as a group's scale is below this. -/
def groupLimit : Nat := 1 <<< 58

/-- The value of a numeral that starts with digits worth `n * scale + part`, of which `part` is the
group that is being gathered. A group fits a machine word, so long numerals are read fast. -/
def continueNat? (base n scale part : Nat) : List Char → Option Nat
  | [] => some (n * scale + part)
  | c :: rest =>
    match digit? base c with
    | none => none
    | some d =>
      if scale < groupLimit then continueNat? base n (scale * base) (part * base + d) rest
      else continueNat? base (n * scale + part) base d rest

theorem continueNat?_eq_foldlM (base n scale part : Nat) (numeral : List Char) :
    continueNat? base n scale part numeral =
      numeral.foldlM (fun n c => (digit? base c).map (n * base + ·)) (n * scale + part) := by
  induction numeral generalizing n scale part with
  | nil => rfl
  | cons c rest ih =>
      simp only [continueNat?, List.foldlM_cons]
      cases digit? base c with
      | none => rfl
      | some d =>
          have hpart : n * (scale * base) + (part * base + d) = (n * scale + part) * base + d := by
            rw [Nat.add_mul, Nat.mul_assoc, Nat.add_assoc]
          by_cases hscale : scale < groupLimit
          · simp only [hscale, if_true, ih, hpart]
            rfl
          · simp only [hscale, if_false, ih]
            rfl

/-- The value of a numeral without a sign. -/
def readNat? (base : Nat) (numeral : List Char) : Option Nat :=
  if numeral.isEmpty then none else continueNat? base 0 1 0 numeral

/-- A decimal numeral below `bound`, a plus sign in front being allowed. -/
def readBelow? (bound : Nat) (numeral : List Char) : Option Nat :=
  let digits := match numeral with
    | '+' :: rest => rest
    | _ => numeral
  (readNat? 10 digits).filter (· < bound)

/-- A numeral in the range of 64-bit signed integers, a sign in front being allowed. -/
def readInt64? (base : Nat) : List Char → Option Int
  | '-' :: rest => ((readNat? base rest).filter (· ≤ 1 <<< 63)).map fun n => -(n : Int)
  | '+' :: rest => ((readNat? base rest).filter (· < 1 <<< 63)).map Int.ofNat
  | numeral => ((readNat? base numeral).filter (· < 1 <<< 63)).map Int.ofNat

/-- Padding on the left up to a width. -/
def padLeft (width : Nat) (fill : Char) (text : String) : String :=
  String.ofList (List.replicate (width - text.length) fill) ++ text

/-- Padding on the right up to a width. -/
def padRight (width : Nat) (fill : Char) (text : String) : String :=
  text ++ String.ofList (List.replicate (width - text.length) fill)

/-- A decimal numeral with zeros in front up to a width. -/
def zeroPadded (width n : Nat) : String := padLeft width '0' (toString n)

/-- A numeral in base sixteen with lower-case letters. -/
def hexadecimal (n : Nat) : String := String.ofList (Nat.toDigits 16 n)

/-- The digit of a value below sixteen, in lower case. -/
def hexDigit (n : Nat) : Char := Char.ofNat (if n < 10 then 48 + n else 87 + n)

/-- A byte as two digits in base sixteen. -/
def hexByte (b : UInt8) : String :=
  String.ofList [hexDigit (b.toNat / 16), hexDigit (b.toNat % 16)]

end JvmAssembler.Text
