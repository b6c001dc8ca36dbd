/-!
# Doubles as exact numbers

A finite double is `significand · 2 ^ exponent`; every ratio of natural numbers has a nearest
double. Text and time conversions are computed on these exact numbers.
-/

namespace RecordStore.Decimal

/-- The magnitude of a finite double, as `significand · 2 ^ exponent`. -/
structure Binary64 where
  significand : Nat
  exponent : Int

namespace Binary64

def ofFloat (value : Float) : Binary64 :=
  let bits := value.toBits.toNat
  let fraction : Nat := bits % Nat.pow 2 52
  let field : Nat := bits / Nat.pow 2 52 % Nat.pow 2 11
  if field = 0 then ⟨fraction, -1074⟩ else ⟨Nat.pow 2 52 + fraction, (field : Int) - 1075⟩

/-- Whether the sign bit is set, also on a zero. -/
def isNegative (value : Float) : Bool :=
  value.toBits.toNat ≥ Nat.pow 2 63

/-- The magnitude as a numerator and a denominator. -/
def ratio (binary : Binary64) : Nat × Nat :=
  if binary.exponent ≥ 0 then (binary.significand * Nat.pow 2 binary.exponent.toNat, 1)
  else (binary.significand, Nat.pow 2 (-binary.exponent).toNat)

/-- A quotient rounded to the nearest natural number, an exact half to the even one. -/
def roundEven (numerator denominator : Nat) : Nat :=
  let quotient := numerator / denominator
  let twice := 2 * (numerator % denominator)
  if twice < denominator then quotient
  else if twice = denominator then quotient + quotient % 2
  else quotient + 1

/-- The binary exponent at which the quotient has 53 digits, or the least exponent there is. -/
def scale (numerator denominator : Nat) : Int :=
  let estimate : Int := (numerator.log2 : Int) - denominator.log2 - 53
  let shifted (exponent : Int) : Nat :=
    if exponent ≥ 0 then numerator / (denominator * Nat.pow 2 exponent.toNat)
    else numerator * Nat.pow 2 (-exponent).toNat / denominator
  max (if shifted estimate < Nat.pow 2 53 then estimate else estimate + 1) (-1074)

/-- The double nearest to a quotient, an exact half going to the even significand. -/
def nearest (numerator denominator : Nat) : Float :=
  if numerator = 0 then 0.0
  else
    let exponent := scale numerator denominator
    let significand :=
      if exponent ≥ 0 then roundEven numerator (denominator * Nat.pow 2 exponent.toNat)
      else roundEven (numerator * Nat.pow 2 (-exponent).toNat) denominator
    let bits :=
      if significand < Nat.pow 2 52 then significand
      else (exponent + 1075).toNat * Nat.pow 2 52 + (significand - Nat.pow 2 52)
    Float.ofBits (UInt64.ofNat (min bits (2047 * Nat.pow 2 52)))

end Binary64

end RecordStore.Decimal
