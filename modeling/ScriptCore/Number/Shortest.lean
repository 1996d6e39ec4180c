import ScriptCore.Number.Binary64

/-!
# The shortest decimal of a double

Among the decimals that round to a given double, those with the fewest digits are
taken, and of these the one nearest to the double; of two equally near ones, the
larger.  The decimals that round to a double form an interval whose ends belong to
it exactly when the double's mantissa is even.
-/

namespace ScriptCore

/-- The number `digits * 10 ^ exponent`. -/
structure Decimal where
  digits : Nat
  exponent : Int
deriving Repr, DecidableEq, Inhabited

namespace Decimal

/-- Drop trailing zeros of the digits, at most `limit` of them. -/
def trim : Nat → Decimal → Decimal
  | 0, decimal => decimal
  | limit + 1, decimal =>
      if decimal.digits ≠ 0 ∧ decimal.digits % 10 = 0 then
        trim limit ⟨decimal.digits / 10, decimal.exponent + 1⟩
      else decimal

/-- The decimal digits of a natural number. -/
def digitChars (number : Nat) : List Char :=
  Nat.toDigits 10 number

end Decimal

namespace Binary64

/-- The interval of reals that round to a double, over one denominator. -/
structure Interval where
  low : Nat
  value : Nat
  high : Nat
  denominator : Nat
  closed : Bool
deriving Repr

/-- The interval around nonzero finite magnitude bits.  The gap below a power of two
is half the gap above it. -/
def interval (magnitude : Nat) : Interval :=
  let mantissa := mantissaOf magnitude
  let unit := twoPow (scaleOf magnitude)
  let below := if mantissa = twoPow 52 ∧ scaleOf magnitude ≠ 0 then 1 else 2
  { low := (4 * mantissa - below) * unit
    value := 4 * mantissa * unit
    high := (4 * mantissa + 2) * unit
    denominator := twoPow 1076
    closed := mantissa % 2 == 0 }

namespace Interval

/-- The same interval measured in units of `10 ^ exponent`. -/
def inUnits (interval : Interval) (exponent : Int) : Interval :=
  let up := tenPow exponent.toNat
  let down := tenPow (-exponent).toNat
  { interval with
    low := interval.low * down
    value := interval.value * down
    high := interval.high * down
    denominator := interval.denominator * up }

/-- Whether an integer lies in the interval. -/
def holds (interval : Interval) (number : Nat) : Bool :=
  let point := number * interval.denominator
  if interval.closed then interval.low ≤ point && point ≤ interval.high
  else interval.low < point && point < interval.high

/-- Of the two integers next to the value, the nearest that lies in the interval; of
two equally near ones, the larger. -/
def neighbour? (interval : Interval) : Option Nat :=
  let below := interval.value / interval.denominator
  let above := below + 1
  let nearer := if 2 * (interval.value % interval.denominator) < interval.denominator
    then below else above
  let farther := if nearer = below then above else below
  if interval.holds nearer then some nearer
  else if interval.holds farther then some farther
  else none

/-- How many zeros follow the decimal point of a value below one, at most `limit`. -/
def leadingZeros (numerator denominator : Nat) : Nat → Nat
  | 0 => 0
  | limit + 1 =>
      if numerator * 10 < denominator then
        leadingZeros (numerator * 10) denominator limit + 1
      else 0

/-- The exponent `k` with `10 ^ (k - 1) ≤ value < 10 ^ k`. -/
def width (interval : Interval) : Int :=
  let whole := interval.value / interval.denominator
  if whole = 0 then -(leadingZeros interval.value interval.denominator 400 : Int)
  else (Decimal.digitChars whole).length

/-- The first decimal in the interval among those with `count`, `count + 1`, … digits,
`more` times. -/
def search (interval : Interval) (width : Int) (count : Nat) : Nat → Decimal
  | 0 => ⟨0, 0⟩
  | more + 1 =>
      let exponent := width - count
      match (interval.inUnits exponent).neighbour? with
      | some digits => ⟨digits, exponent⟩
      | none => search interval width (count + 1) more

end Interval

/-- The shortest decimal of nonzero finite magnitude bits. -/
def shortest (magnitude : Nat) : Decimal :=
  let around := interval magnitude
  (around.search around.width 1 17).trim 20

end Binary64

end ScriptCore
