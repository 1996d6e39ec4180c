import ScriptCore.Number.Shortest

/-!
# The text of a double

Doubles from `10 ^ 16` on are written in scientific form with an explicit plus sign in
the exponent; smaller whole ones with all their digits and a final `.0`; all others
positionally, with the fewest digits that read back.
-/

namespace ScriptCore

/-- The decisions of a format for doubles. -/
structure DoubleFormat where
  /-- Magnitudes from here on are written in scientific form. -/
  scientificFrom : Nat
  exponentMark : String
  wholeSuffix : String
  nan : String
  infinity : String

namespace Decimal

/-- Digits with a point after the first, and the exponent that belongs to it. -/
def scientific (mark : String) (decimal : Decimal) : String :=
  let digits := digitChars decimal.digits
  let exponent := decimal.exponent + digits.length - 1
  let fraction := match digits.tail with
    | [] => ""
    | rest => "." ++ String.ofList rest
  String.ofList (digits.take 1) ++ fraction ++ mark ++ toString exponent

/-- Digits around a decimal point, padded with zeros where the number needs them. -/
def positional (decimal : Decimal) : String :=
  let digits := digitChars decimal.digits
  let point := decimal.exponent + digits.length
  if 0 ≤ decimal.exponent then
    String.ofList (digits ++ List.replicate decimal.exponent.toNat '0')
  else if 0 < point then
    String.ofList (digits.take point.toNat ++ '.' :: digits.drop point.toNat)
  else
    String.ofList ('0' :: '.' :: (List.replicate (-point).toNat '0' ++ digits))

end Decimal

namespace Binary64

/-- How the language writes doubles. -/
def scriptFormat : DoubleFormat where
  scientificFrom := tenPow 16
  exponentMark := "e+"
  wholeSuffix := ".0"
  nan := "nan"
  infinity := "inf"

/-- The text of finite magnitude bits. -/
def finiteText (format : DoubleFormat) (magnitude : Nat) : String :=
  let (numerator, denominator) := ratioOf magnitude
  if format.scientificFrom * denominator ≤ numerator then
    (shortest magnitude).scientific format.exponentMark
  else if numerator % denominator = 0 then
    toString (numerator / denominator) ++ format.wholeSuffix
  else
    (shortest magnitude).positional

/-- The text of a double. -/
def render (format : DoubleFormat) (double : Binary64) : String :=
  if double.isNaN then format.nan
  else
    (if double.negative then "-" else "") ++
      if double.isInfinite then format.infinity
      else finiteText format double.magnitude

/-- The text of a double as the language writes it. -/
def text (double : Binary64) : String :=
  double.render scriptFormat

end Binary64

end ScriptCore
