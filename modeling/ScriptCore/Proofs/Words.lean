import Mathlib.Algebra.Group.Int.Defs
import Mathlib.Algebra.Group.Nat.Defs
import ScriptCore.Word

/-!
# Words as integers

What is computed with words is the same as with integers, as long as the integers are words.
-/

namespace ScriptCore.Word

section Sums

variable {left right : Int64}

/-- There is no sum exactly when the sum of the integers is too small or too large. -/
theorem add?_eq_none_iff :
    add? left right = none ↔
      left.toInt + right.toInt < -2 ^ 63 ∨ 2 ^ 63 ≤ left.toInt + right.toInt := by
  rw [Option.eq_none_iff_forall_ne_some]
  constructor
  · intro missing
    have noWord : ¬ (-2 ^ 63 ≤ left.toInt + right.toInt ∧ left.toInt + right.toInt < 2 ^ 63) :=
      fun fits => missing _ (add?_eq_some_iff.mpr (Int64.toInt_ofInt_of_le fits.1 fits.2))
    omega
  · intro outside sum found
    have exact := add?_eq_some_iff.mp found
    have low := Int64.le_toInt sum
    have high := Int64.toInt_lt sum
    omega

theorem exists_add (low : -2 ^ 63 ≤ left.toInt + right.toInt)
    (high : left.toInt + right.toInt < 2 ^ 63) :
    ∃ sum, add left right = .ok sum ∧ sum.toInt = left.toInt + right.toInt := by
  cases found : add? left right with
  | none =>
      have outside := add?_eq_none_iff.mp found
      omega
  | some sum => exact ⟨sum, by rw [add, found, Fault.unless], add?_eq_some_iff.mp found⟩

end Sums

theorem exists_clamp {low high : Int64} (ordered : low.toInt ≤ high.toInt) (word : Int64) :
    ∃ within, clamp low high word = .ok within ∧
      within.toInt = max low.toInt (min high.toInt word.toInt) := by
  have uncrossed : ¬ high < low := by
    rw [Int64.lt_iff_toInt_lt]
    omega
  rw [clamp, if_neg uncrossed]
  refine ⟨_, rfl, ?_⟩
  split
  · rename_i below
    rw [Int64.lt_iff_toInt_lt] at below
    omega
  · rename_i notBelow
    rw [Int64.lt_iff_toInt_lt] at notBelow
    split
    · rename_i above
      rw [Int64.lt_iff_toInt_lt] at above
      omega
    · rename_i notAbove
      rw [Int64.lt_iff_toInt_lt] at notAbove
      omega

theorem toInt_ofLength {length : Nat} (fits : length < 2 ^ 63) :
    (ofLength length).toInt = length :=
  Int64.toInt_ofNat_of_lt fits

theorem toPlace_eq {word : Int64} (nonnegative : 0 ≤ word.toInt) :
    (toPlace word : Int) = word.toInt := by
  have bits : toPlace word = word.toBitVec.toNat := rfl
  have signed : word.toInt = word.toBitVec.toInt := rfl
  rw [bits, signed, BitVec.toInt_eq_toNat_cond]
  rw [signed, BitVec.toInt_eq_toNat_cond] at nonnegative
  split
  · rfl
  · omega

end ScriptCore.Word
