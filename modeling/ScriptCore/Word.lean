import ScriptCore.Stop

/-!
# Words

Positions and bounds are words, integers of 64 bits.  The sum of two words need not be a word.
-/

namespace ScriptCore.Word

/-- The sum of two words, if it is a word. -/
def add? (left right : Int64) : Option Int64 :=
  if (left + right).toInt = left.toInt + right.toInt then some (left + right) else none

section Sums

variable {left right sum : Int64}

/-- The sum of two words is exact as soon as some word is the sum of the integers. -/
theorem toInt_add (fits : sum.toInt = left.toInt + right.toInt) :
    (left + right).toInt = left.toInt + right.toInt := by
  have low := Int64.le_toInt sum
  have high := Int64.toInt_lt sum
  rw [Int64.toInt_add]
  exact Int.bmod_eq_of_le (by omega) (by omega)

/-- A word is the sum exactly when it is the sum of the integers. -/
theorem add?_eq_some_iff : add? left right = some sum ↔ sum.toInt = left.toInt + right.toInt := by
  unfold add?
  constructor
  · intro found
    split at found
    · cases found
      assumption
    · cases found
  · intro exact
    have fits := toInt_add exact
    rw [if_pos fits, Option.some.injEq, ← Int64.toInt_inj, fits, exact]

end Sums

/-- The sum of two words, which has to be a word. -/
def add (left right : Int64) : Except Stop Int64 :=
  Fault.overflow.unless (add? left right)

/-- A word brought between two limits. -/
def clamp (low high word : Int64) : Except Stop Int64 :=
  if high < low then .error (.fault .crossedLimits)
  else .ok (if word < low then low else if high < word then high else word)

/-- The length of a sequence as a word. -/
def ofLength (length : Nat) : Int64 :=
  .ofNat length

/-- A word as a place in a sequence; negative words wrap around to places beyond all others. -/
def toPlace (word : Int64) : Nat :=
  word.toUInt64.toNat

end ScriptCore.Word
