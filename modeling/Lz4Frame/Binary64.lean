/-! Quotients of natural numbers as 64-bit binary floating point numbers. A quotient is rounded to
53 significant bits, and a number is written in decimal with its exact value rounded once more. In
both places a tie goes to the even neighbour. All of it is exact arithmetic on natural numbers. -/

namespace Lz4Frame

/-- The quotient rounded to the nearest natural number, a tie to the even one. -/
def roundDiv (num den : Nat) : Nat :=
  let quotient := num / den
  let twice := 2 * (num % den)
  if twice < den || (twice == den && quotient % 2 == 0) then quotient else quotient + 1

/-- The nearest natural number with 53 significant bits. -/
def roundNat (n : Nat) : Nat :=
  let unit := 1 <<< (n.log2 - 52)
  roundDiv n unit * unit

/-- The number `mantissa * 2 ^ exponent`. The mantissa has 53 bits, or it is zero. -/
structure Binary64 where
  mantissa : Nat
  exponent : Int
  deriving DecidableEq, Repr

namespace Binary64

def zero : Binary64 := ⟨0, 0⟩

/-- The number `n * 2 ^ power`, where a negative power counts as zero. -/
def scale (n : Nat) (power : Int) : Nat := n <<< power.toNat

/-- The largest power of two that is at most `num / den`. -/
def floorLog (num den : Nat) : Int :=
  let power : Int := num.log2 - den.log2
  if scale num (-power) < scale den power then power - 1 else power

/-- The quotient `num / den`, to the nearest number with 53 significant bits. -/
def ofRatio (num den : Nat) : Binary64 :=
  if num = 0 then
    zero
  else
    let exponent := floorLog num den - 52
    let mantissa := roundDiv (scale num (-exponent)) (scale den exponent)
    if mantissa = 1 <<< 53 then ⟨1 <<< 52, exponent + 1⟩ else ⟨mantissa, exponent⟩

def ofNat (n : Nat) : Binary64 := ofRatio n 1

/-- The quotient of two numbers of which the second is not zero. -/
def div (x y : Binary64) : Binary64 :=
  ofRatio (scale x.mantissa (x.exponent - y.exponent)) (scale y.mantissa (y.exponent - x.exponent))

/-- The quotient of two natural numbers of which the second is not zero. Each of them is rounded
before the quotient is. -/
def quotient (num den : Nat) : Binary64 := (ofNat num).div (ofNat den)

/-- The interchange format of a number that is not too big or too small for it: eleven bits of
biased exponent over the low 52 bits of the mantissa. -/
def toBits (x : Binary64) : UInt64 :=
  if x.mantissa = 0 then
    0
  else
    UInt64.ofNat ((x.exponent + 52 + 1023).toNat <<< 52 + (x.mantissa - 1 <<< 52))

/-- The value times `10 ^ places`, to the nearest natural number. -/
def roundTo (places : Nat) (x : Binary64) : Nat :=
  roundDiv (scale (x.mantissa * Nat.pow 10 places) x.exponent) (scale 1 (-x.exponent))

end Binary64

/-- A count of units in decimal, with a point in front of the last `places` digits. -/
def fixedPoint (places units : Nat) : String :=
  let whole := units / Nat.pow 10 places
  let fraction := Nat.toDigits 10 (units % Nat.pow 10 places)
  s!"{whole}." ++ String.ofList (fraction.leftpad places '0')

/-- The number in decimal with `places` digits after the point. -/
def Binary64.toFixed (places : Nat) (x : Binary64) : String := fixedPoint places (x.roundTo places)

end Lz4Frame
