import JvmAssembler.Ieee.Decimal

/-! The decimal of a floating point number is the one with the fewest digits among those that round
to it, and of these the nearest; of two equally near the greater. -/

namespace JvmAssembler.Ieee

/-- Compare `a * 10 ^ i` with `b * 2 ^ j`. -/
def compareScaled (a : Nat) (i : Int) (b : Nat) (j : Int) : Ordering :=
  compare ((a * Nat.pow 10 i.toNat) <<< (-j).toNat) ((b * Nat.pow 10 (-i).toNat) <<< j.toNat)

/-- Does a decimal round to the number? The ends of the interval do if the significand is even. -/
def Magnitude.reads (m : Magnitude) (d : Decimal) : Bool :=
  let low := if m.narrowBelow then 4 * m.significand - 1 else 4 * m.significand - 2
  let high := 4 * m.significand + 2
  let closed := m.significand % 2 == 0
  let fromLow := compareScaled d.digits d.exponent low (m.scale - 2)
  let fromHigh := compareScaled d.digits d.exponent high (m.scale - 2)
  (fromLow == .gt || (closed && fromLow == .eq)) && (fromHigh == .lt || (closed && fromHigh == .eq))

/-- The least power of ten above the number, searched upward from a lower bound. -/
def Magnitude.leading (m : Magnitude) : Nat → Int → Int
  | 0, k => k
  | steps + 1, k =>
    if compareScaled 1 k m.significand m.scale == .gt then k else m.leading steps (k + 1)

/-- The multiple of `10 ^ exponent` that reads as the number, if one of its two neighbours does. -/
def Magnitude.onGrid? (m : Magnitude) (exponent : Int) : Option Decimal :=
  let num := (m.significand * Nat.pow 10 (-exponent).toNat) <<< m.scale.toNat
  let den := (Nat.pow 10 exponent.toNat) <<< (-m.scale).toNat
  let below : Decimal := ⟨num / den, exponent⟩
  let above : Decimal := ⟨num / den + 1, exponent⟩
  match m.reads below, m.reads above with
  | true, true => some (if 2 * (num % den) < den then below else above)
  | true, false => some below
  | false, true => some above
  | false, false => none

/-- Trailing zeros move into the exponent. -/
def Decimal.trim (d : Decimal) : Nat → Decimal
  | 0 => d
  | steps + 1 =>
    if d.digits ≠ 0 ∧ d.digits % 10 = 0 then Decimal.trim ⟨d.digits / 10, d.exponent + 1⟩ steps else d

/-- The shortest decimal of a positive number, sought on finer and finer grids. -/
def Magnitude.shortest (m : Magnitude) : Decimal :=
  let bits : Int := m.significand.log2 + m.scale
  let k := m.leading 400 (bits * 30103 / 100000 - 1)
  let found := (List.range 17).findSome? fun (n : Nat) => m.onGrid? (k - (n + 1 : Nat))
  let exact : Decimal := ⟨(m.significand <<< m.scale.toNat) * Nat.pow 5 (-m.scale).toNat, min m.scale 0⟩
  (found.getD exact).trim 400

/-- The text of a positive decimal: positional when its leading digit stands between `10 ^ -4` and
`10 ^ 15`, with one place at least; otherwise with an exponent. -/
def Decimal.text (d : Decimal) : String :=
  let digits := Nat.toDigits 10 d.digits
  let lead := d.exponent + digits.length - 1
  let write (whole places : List Char) : String :=
    String.ofList whole ++ "." ++ String.ofList (if places.isEmpty then ['0'] else places)
  if -4 ≤ lead ∧ lead ≤ 15 then
    if 0 ≤ d.exponent then write (digits ++ List.replicate d.exponent.toNat '0') []
    else if 0 ≤ lead then write (digits.take (lead.toNat + 1)) (digits.drop (lead.toNat + 1))
    else write ['0'] (List.replicate (-lead - 1).toNat '0' ++ digits)
  else
    let places := digits.drop 1
    let mantissa := String.ofList (digits.take 1) ++
      (if places.isEmpty then "" else "." ++ String.ofList places)
    mantissa ++ "e" ++ toString lead

/-- The text of a bit pattern. -/
def Format.text (f : Format) (bits : Nat) : String :=
  let rest := bits % f.signBit
  let sign := if f.signBit ≤ bits then "-" else ""
  if f.infinity < rest then "NaN"
  else if rest = f.infinity then sign ++ "inf"
  else if rest = 0 then sign ++ "0.0"
  else sign ++ (f.magnitude rest).shortest.text

end JvmAssembler.Ieee
