import RecordStore.Decimal.Binary64

/-!
# The shortest decimal of a double

Of all decimals that read back as the same double, the ones with the fewest digits, and of these
the nearest.
-/

namespace RecordStore.Decimal

/-- Which of two equally near decimals is taken. -/
inductive Tie where
  | away
  | toEven
  deriving DecidableEq

/-- A positive decimal `0.d₁d₂… · 10 ^ point`; the digits neither start nor end with a zero. -/
structure Digits where
  digits : String
  point : Int

namespace Shortest

/-- The real numbers that round to a double, as multiples of `1 / denominator`. -/
structure Interval where
  low : Nat
  value : Nat
  high : Nat
  denominator : Nat
  closed : Bool

def Interval.ofBinary (binary : Binary64) : Interval :=
  let quarters (count : Nat) : Nat × Nat :=
    Binary64.ratio ⟨count, binary.exponent - 2⟩
  let below := if binary.significand = Nat.pow 2 52 ∧ binary.exponent > -1074 then 1 else 2
  { low := (quarters (4 * binary.significand - below)).1
    value := (quarters (4 * binary.significand)).1
    high := (quarters (4 * binary.significand + 2)).1
    denominator := (quarters 1).2
    closed := binary.significand % 2 = 0 }

def Interval.holds (interval : Interval) (numerator : Nat) : Bool :=
  if interval.closed then interval.low ≤ numerator ∧ numerator ≤ interval.high
  else interval.low < numerator ∧ numerator < interval.high

/-- The place of the decimal point: the least `point` with `value < 10 ^ point`. -/
def Interval.point (interval : Interval) : Int :=
  (Nat.toDigits 10 (interval.value * Nat.pow 10 400 / interval.denominator)).length - 400

/-- The interval in units of `10 ^ unit`. -/
def Interval.inUnits (interval : Interval) (unit : Int) : Interval :=
  if unit ≥ 0 then
    { interval with denominator := interval.denominator * Nat.pow 10 unit.toNat }
  else
    let factor := Nat.pow 10 (-unit).toNat
    { interval with
      low := interval.low * factor
      value := interval.value * factor
      high := interval.high * factor }

/-- The neighbour of the value on the grid of whole units that reads back, the nearer one first. -/
def Interval.neighbour? (interval : Interval) (tie : Tie) : Option Nat :=
  let below := interval.value / interval.denominator
  let above := below + 1
  let belowHolds := interval.holds (below * interval.denominator)
  let aboveHolds := interval.holds (above * interval.denominator)
  let twice := 2 * (interval.value % interval.denominator)
  let preferBelow :=
    twice < interval.denominator ∨
      (twice = interval.denominator ∧ tie = .toEven ∧ below % 2 = 0)
  if belowHolds ∧ (preferBelow ∨ ¬ aboveHolds) then some below
  else if aboveHolds then some above
  else none

/-- Tries grids of more and more digits; seventeen digits always suffice. -/
def search (interval : Interval) (tie : Tie) (point : Int) : (counts : List Nat) → Nat × Int
  | [] => (0, 0)
  | count :: counts =>
    match (interval.inUnits (point - count)).neighbour? tie with
    | some digits => (digits, point - count)
    | none => search interval tie point counts

end Shortest

/-- The shortest decimal of the magnitude of a finite double other than zero. -/
def Digits.shortest (value : Float) (tie : Tie) : Digits :=
  let interval := Shortest.Interval.ofBinary (Binary64.ofFloat value)
  let (number, unit) := Shortest.search interval tie interval.point ((List.range 17).map (· + 1))
  let digits := Nat.toDigits 10 number
  { digits := String.ofList (digits.reverse.dropWhile (· = '0')).reverse
    point := unit + digits.length }

end RecordStore.Decimal
