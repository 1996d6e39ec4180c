import ScriptCore.Json.Basic

/-!
# Reading JSON numbers

The digits of a number are gathered into a significand of 64 bits.  Once a further digit of
the integer part does not fit, it and all later ones only raise the decimal exponent; a
digit of the fraction that does not fit ends the significand.  The double is the rounded
significand times or divided by a rounded power of ten, so its last bits may differ from
those of the nearest double.  A number too large for a double is refused.
-/

namespace ScriptCore.Json

/-- The value of a decimal digit. -/
def digitValue (char : Char) : Nat :=
  char.toNat - '0'.toNat

/-- The largest significand. -/
def significandLimit : Nat := twoPow 64 - 1

/-- The largest written exponent that is read as it stands. -/
def exponentLimit : Nat := twoPow 31 - 1

/-- Gather the digits of the integer part: the significand, and how many digits did not
fit. -/
def gatherWhole : Nat → Nat → List Char → Nat × Nat
  | significand, dropped, [] => (significand, dropped)
  | significand, dropped, char :: rest =>
      let next := significand * 10 + digitValue char
      if dropped = 0 ∧ next ≤ significandLimit then gatherWhole next 0 rest
      else gatherWhole significand (dropped + 1) rest

/-- Gather the digits of the fraction: the significand, and how many digits were taken. -/
def gatherFraction : Nat → Nat → List Char → Nat × Nat
  | significand, taken, [] => (significand, taken)
  | significand, taken, char :: rest =>
      let next := significand * 10 + digitValue char
      if next ≤ significandLimit then gatherFraction next (taken + 1) rest
      else (significand, taken)

/-- Magnitude bits times a power of ten, at most `limit` divisions; none when too large.
Exponents beyond 308 are worked off in parts. -/
def scaleBits : Nat → Nat → Int → Option Nat
  | 0, _, _ => some 0
  | limit + 1, magnitude, exponent =>
      if exponent.natAbs ≤ 308 then
        let power := Binary64.natBits (tenPow exponent.natAbs)
        if 0 ≤ exponent then
          let product := Binary64.mulBits magnitude power
          if product = Binary64.infinityBits then none else some product
        else some (Binary64.divBits magnitude power)
      else if magnitude = 0 then some 0
      else if 0 ≤ exponent then none
      else
        let power := Binary64.natBits (tenPow 308)
        scaleBits limit (Binary64.divBits magnitude power) (exponent + 308)

/-- The double `significand * 10 ^ exponent`, if it is not too large. -/
def toDouble (negative : Bool) (significand : Nat) (exponent : Int) : Option Number :=
  (scaleBits 4 (Binary64.natBits significand) exponent).map fun magnitude =>
    .double (.ofMagnitude negative magnitude)

/-- An integer without fraction and exponent.  A minus sign before zero, or before a number
too large for 64 signed bits, gives a double. -/
def toInteger (negative : Bool) (significand : Nat) : Number :=
  if negative then
    if significand = 0 ∨ twoPow 63 < significand then
      .double (.ofMagnitude true (Binary64.natBits significand))
    else .signed (.ofInt (-(significand : Int)))
  else .unsigned (.ofNat significand)

/-- Read the exponent after its mark, and finish the number. -/
def readExponent (negative : Bool) (significand : Nat) (start : Int) (text : List Char) :
    Option (Number × List Char) :=
  let (lowers, text) := match text with
    | '+' :: rest => (false, rest)
    | '-' :: rest => (true, rest)
    | rest => (false, rest)
  let digits := text.takeWhile Char.isDigit
  let rest := text.dropWhile Char.isDigit
  if digits.isEmpty then none
  else
    let written := digits.foldl (fun number char => number * 10 + digitValue char) 0
    if exponentLimit < written then
      if significand ≠ 0 ∧ !lowers then none
      else some (.double (.ofMagnitude negative 0), rest)
    else
      let exponent := if lowers then start - written else start + written
      (toDouble negative significand exponent).map (·, rest)

/-- Finish a number with a fraction or an exponent. -/
def finishDouble (negative : Bool) (significand : Nat) (exponent : Int) (text : List Char) :
    Option (Number × List Char) :=
  match text with
  | 'e' :: rest => readExponent negative significand exponent rest
  | 'E' :: rest => readExponent negative significand exponent rest
  | rest => (toDouble negative significand exponent).map (·, rest)

/-- Read a number after its sign. -/
def readUnsigned (negative : Bool) (text : List Char) : Option (Number × List Char) :=
  let digits := text.takeWhile Char.isDigit
  let rest := text.dropWhile Char.isDigit
  if digits.isEmpty ∨ (digits.head? = some '0' ∧ digits.length ≠ 1) then none
  else
    let (significand, dropped) := gatherWhole 0 0 digits
    match rest with
    | '.' :: rest =>
        let fraction := rest.takeWhile Char.isDigit
        if fraction.isEmpty then none
        else
          let (significand, taken) := gatherFraction significand 0 fraction
          finishDouble negative significand (dropped - taken) (rest.dropWhile Char.isDigit)
    | 'e' :: _ => finishDouble negative significand dropped rest
    | 'E' :: _ => finishDouble negative significand dropped rest
    | _ =>
        if dropped = 0 then some (toInteger negative significand, rest)
        else finishDouble negative significand dropped rest

/-- Read a number. -/
def readNumber : List Char → Option (Number × List Char)
  | '-' :: rest => readUnsigned true rest
  | rest => readUnsigned false rest

end ScriptCore.Json
