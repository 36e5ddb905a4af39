/-! A format of binary floating point numbers, its bit patterns, and rounding to it: to nearest, a
tie going to the even significand, and to infinity beyond the largest finite number. Everything is
exact arithmetic on natural numbers. -/

namespace JvmAssembler.Ieee

/-- Widths of the fraction and exponent fields. The sign is one more bit. -/
structure Format where
  fraction : Nat
  exponent : Nat
deriving DecidableEq, Repr

def single : Format := ⟨23, 8⟩

def double : Format := ⟨52, 11⟩

/-- A finite non-negative number `significand * 2 ^ scale`. -/
structure Magnitude where
  significand : Nat
  scale : Int
  /-- Is the gap to the number below half the gap to the number above? -/
  narrowBelow : Bool
deriving DecidableEq, Repr

namespace Format

/-- The scale of the least positive number. -/
def leastScale (f : Format) : Int := 2 - (1 <<< (f.exponent - 1) : Nat) - f.fraction

/-- The bits of positive infinity. -/
def infinity (f : Format) : Nat := ((1 <<< f.exponent) - 1) <<< f.fraction

/-- The sign bit. -/
def signBit (f : Format) : Nat := 1 <<< (f.fraction + f.exponent)

/-- The number whose bits, sign apart, are a natural number below `infinity`. -/
def magnitude (f : Format) (bits : Nat) : Magnitude :=
  let field := bits >>> f.fraction
  let fraction := bits % (1 <<< f.fraction)
  if field = 0 then ⟨fraction, f.leastScale, false⟩
  else ⟨(1 <<< f.fraction) + fraction, f.leastScale + (field - 1 : Nat), fraction == 0 && field > 1⟩

end Format

/-- The quotient rounded to nearest, a tie going to the even neighbour. -/
def roundDiv (num den : Nat) : Nat :=
  let quotient := num / den
  let twice := 2 * (num % den)
  if twice < den then quotient
  else if den < twice then quotient + 1
  else quotient + quotient % 2

/-- The bits of the positive quotient `num / den`, rounded to the format. -/
def Format.ofQuotient (f : Format) (num den : Nat) : Nat :=
  if num = 0 then 0
  else
    let estimate : Int := (num.log2 : Int) - den.log2
    let exponent :=
      if den <<< estimate.toNat ≤ num <<< (-estimate).toNat then estimate else estimate - 1
    let scale := max (exponent - f.fraction) f.leastScale
    let significand := roundDiv (num <<< (-scale).toNat) (den <<< scale.toNat)
    min (((scale - f.leastScale).toNat <<< f.fraction) + significand) f.infinity

/-- The bits of `significand * 2 ^ scale`, rounded to the format. -/
def Format.ofMagnitude (f : Format) (m : Magnitude) : Nat :=
  f.ofQuotient (m.significand <<< m.scale.toNat) (1 <<< (-m.scale).toNat)

/-- A double precision number rounded to single precision. A NaN stays one: it keeps its sign and the
leading bits of its fraction, and becomes quiet. -/
def narrow (bits : UInt64) : UInt32 :=
  let sign := bits.toNat / double.signBit
  let rest := bits.toNat % double.signBit
  let narrowed :=
    if rest < double.infinity then single.ofMagnitude (double.magnitude rest)
    else if rest = double.infinity then single.infinity
    else single.infinity ||| (1 <<< 22) ||| ((rest % (1 <<< 52)) >>> 29)
  UInt32.ofNat (sign * single.signBit + narrowed)

end JvmAssembler.Ieee
