/-!
# Binary floating point

A double is given by its 64 bits: a sign, an exponent field of eleven bits and a
fraction of fifty-two.  Everything here is computed on the bits in exact integer
arithmetic: a finite double is `mantissa * 2 ^ exponent`, and the nearest double to a
quotient of natural numbers is found by exact division, a tie going to the even
mantissa.
-/

namespace ScriptCore

/-- A power of two. -/
def twoPow (exponent : Nat) : Nat :=
  Nat.pow 2 exponent

/-- A power of ten. -/
def tenPow (exponent : Nat) : Nat :=
  Nat.pow 10 exponent

/-- A double, by its bits. -/
structure Binary64 where
  bits : UInt64
deriving Repr, DecidableEq, Inhabited

namespace Binary64

/-- The bits below the sign. -/
def magnitude (double : Binary64) : Nat :=
  double.bits.toNat % twoPow 63

/-- Whether the sign bit is set. -/
def negative (double : Binary64) : Bool :=
  double.bits.toNat ≥ twoPow 63

/-- The magnitude bits of infinity. -/
def infinityBits : Nat := 0x7ff * twoPow 52

/-- Whether these bits are no number at all. -/
def isNaN (double : Binary64) : Bool :=
  double.magnitude > infinityBits

/-- Whether this is one of the two infinities. -/
def isInfinite (double : Binary64) : Bool :=
  double.magnitude == infinityBits

/-- Whether this is one of the two zeros. -/
def isZero (double : Binary64) : Bool :=
  double.magnitude == 0

/-- The bits, both zeros counting as the positive one. -/
def plainBits (double : Binary64) : UInt64 :=
  if double.isZero then 0 else double.bits

/-- Numeric equality: a NaN equals nothing, the two zeros are equal, and otherwise
the bits decide. -/
def equal (left right : Binary64) : Bool :=
  !left.isNaN && !right.isNaN && (left.bits == right.bits || left.isZero && right.isZero)

/-- The integer `m` in `m * 2 ^ q`, for finite magnitude bits. -/
def mantissaOf (magnitude : Nat) : Nat :=
  if magnitude < twoPow 52 then magnitude else twoPow 52 + magnitude % twoPow 52

/-- The integer `q + 1074` in `m * 2 ^ q`, for finite magnitude bits. -/
def scaleOf (magnitude : Nat) : Nat :=
  if magnitude < twoPow 52 then 0 else magnitude / twoPow 52 - 1

/-- The absolute value of finite magnitude bits, as numerator over denominator. -/
def ratioOf (magnitude : Nat) : Nat × Nat :=
  (mantissaOf magnitude * twoPow (scaleOf magnitude), twoPow 1074)

/-- Numerator over denominator rounded to the nearest integer, ties to even. -/
def roundDiv (numerator denominator : Nat) : Nat :=
  let quotient := numerator / denominator
  let doubled := 2 * (numerator % denominator)
  if doubled < denominator then quotient
  else if doubled > denominator then quotient + 1
  else quotient + quotient % 2

/-- The magnitude bits of the double nearest to a quotient, ties to the even mantissa;
infinity when the quotient is too large. -/
def nearestBits (numerator denominator : Nat) : Nat :=
  let scaled := numerator * twoPow 1074
  let whole := scaled / denominator
  let shift := if whole < twoPow 53 then 0 else Nat.log2 whole - 52
  let mantissa := roundDiv scaled (denominator * twoPow shift)
  Nat.min infinityBits (shift * twoPow 52 + mantissa)

/-- A double with the given sign and magnitude bits. -/
def ofMagnitude (negative : Bool) (magnitude : Nat) : Binary64 :=
  ⟨UInt64.ofNat ((if negative then twoPow 63 else 0) + magnitude)⟩

/-- The magnitude bits nearest to a natural number. -/
def natBits (number : Nat) : Nat :=
  nearestBits number 1

/-- The rounded product of two finite magnitudes. -/
def mulBits (left right : Nat) : Nat :=
  let (leftTop, leftBottom) := ratioOf left
  let (rightTop, rightBottom) := ratioOf right
  nearestBits (leftTop * rightTop) (leftBottom * rightBottom)

/-- The rounded quotient of two finite magnitudes, the second not zero. -/
def divBits (left right : Nat) : Nat :=
  nearestBits (ratioOf left).1 (ratioOf right).1

end Binary64

end ScriptCore
