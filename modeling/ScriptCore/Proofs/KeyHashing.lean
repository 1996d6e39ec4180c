import ScriptCore.Proofs.KeyedEntries

/-!
# Hashing of keys

A key gives a hash function its variant and its payload.  This data tells keys apart exactly as
equality does, except that a NaN is unequal even to itself.
-/

namespace ScriptCore

namespace Binary64

variable {double left right : Binary64}

theorem plainBits_eq_zero_iff : double.plainBits = 0 ↔ double.isZero = true := by
  rw [plainBits]
  constructor
  · intro none
    split at none
    · assumption
    · rw [isZero, magnitude, none]
      rfl
  · intro zero
    rw [if_pos zero]

/-- The plain bits tell all doubles apart but the two zeros. -/
theorem plainBits_eq_iff :
    left.plainBits = right.plainBits ↔
      left.bits = right.bits ∨ left.isZero = true ∧ right.isZero = true := by
  constructor
  · intro same
    by_cases zero : left.isZero = true
    · have none := plainBits_eq_zero_iff.mpr zero
      rw [same] at none
      exact .inr ⟨zero, plainBits_eq_zero_iff.mp none⟩
    · have other : ¬ right.isZero = true := by
        rw [← plainBits_eq_zero_iff, ← same, plainBits_eq_zero_iff]
        exact zero
      rw [plainBits, plainBits, if_neg zero, if_neg other] at same
      exact .inl same
  · rintro (bits | ⟨leftZero, rightZero⟩)
    · rw [plainBits, plainBits, isZero, isZero, magnitude, magnitude, bits]
    · rw [plainBits_eq_zero_iff.mpr leftZero, plainBits_eq_zero_iff.mpr rightZero]

theorem isNaN_of_isZero (zero : double.isZero = true) : double.isNaN = false := by
  rw [isZero, beq_iff_eq] at zero
  rw [isNaN, zero]
  rfl

/-- Doubles are equal if their plain bits are the same, and these are a number. -/
theorem equal_iff :
    left.equal right = true ↔ left.plainBits = right.plainBits ∧ left.isNaN = false := by
  rw [plainBits_eq_iff]
  simp only [equal, Bool.and_eq_true, Bool.or_eq_true, Bool.not_eq_true', beq_iff_eq]
  constructor
  · rintro ⟨⟨number, -⟩, same⟩
    exact ⟨same, number⟩
  · rintro ⟨same, number⟩
    refine ⟨⟨number, ?_⟩, same⟩
    rcases same with bits | ⟨-, zero⟩
    · rw [isNaN, magnitude, bits] at number
      exact number
    · exact isNaN_of_isZero zero

end Binary64

/-- Whether a value is a double that is no number. -/
def Value.IsNaN (value : Value) : Prop :=
  ∃ double, value = .double double ∧ double.isNaN = true

namespace Key

section Payloads

variable {left right : Value}

theorem alike_of_equal (same : left.equal right = true) :
    left.variant = right.variant ∧ payload? left = payload? right ∧ ¬ left.IsNaN := by
  unfold Value.equal at same
  split at same
  case h_4 left right =>
      obtain ⟨bits, number⟩ := Binary64.equal_iff.mp same
      simp [payload?, bits, Value.variant, Value.IsNaN, number]
  case h_15 => cases same
  all_goals simp_all [Value.variant, payload?, Str.equal, Value.IsNaN]

theorem equal_of_alike (hashable : left.isHashable = true)
    (variants : left.variant = right.variant) (payloads : payload? left = payload? right)
    (number : ¬ left.IsNaN) : left.equal right = true := by
  -- Only the cases in which both are of one variant are left.
  cases left <;> cases right <;> cases variants
  case double.double.refl left right =>
      refine Binary64.equal_iff.mpr ⟨by simpa [payload?] using payloads, ?_⟩
      rw [← Bool.not_eq_true]
      exact fun nan => number ⟨left, rfl, nan⟩
  all_goals simp_all [Value.equal, payload?, Str.equal, Value.isHashable]

end Payloads

section Keys

variable {key left right : Key}

theorem exists_payload (key : Key) : ∃ payload, payload? key.value = some payload := by
  obtain ⟨value, hashable⟩ := key
  cases value <;> cases hashable <;> exact ⟨_, rfl⟩

/-- Every key gives data to a hash function: no mutable container is one. -/
theorem isSome_fed? (key : Key) : key.fed?.isSome = true := by
  obtain ⟨payload, given⟩ := key.exists_payload
  rw [fed?, given]
  rfl

/-- Keys are equal exactly if they give the same data to a hash function and are no NaN. -/
theorem equal_iff : left.equal right = true ↔ left.fed? = right.fed? ∧ ¬ left.value.IsNaN := by
  constructor
  · intro same
    obtain ⟨variants, payloads, number⟩ := alike_of_equal same
    rw [fed?, fed?, variants, payloads]
    exact ⟨rfl, number⟩
  · rintro ⟨fed, number⟩
    obtain ⟨leftPayload, leftGiven⟩ := left.exists_payload
    obtain ⟨rightPayload, rightGiven⟩ := right.exists_payload
    rw [fed?, fed?, leftGiven, rightGiven, Option.map_some, Option.map_some] at fed
    obtain ⟨variants, payloads⟩ := List.cons.inj (Option.some.inj fed)
    refine equal_of_alike left.hashable (Fed.variant.inj variants) ?_ number
    rw [leftGiven, rightGiven, payloads]

/-- Only a NaN is unequal to itself. -/
theorem equal_self_eq_false_iff : key.equal key = false ↔ key.value.IsNaN := by
  rw [← Bool.not_eq_true, equal_iff]
  simp

end Keys

section Admitted

variable {one other : Value} {first second : Key}

/-- Equality of keys, and what they give to a hash function, fit together. -/
theorem equality_coheres_with_hashing (firstMade : ofValue one = .ok first)
    (secondMade : ofValue other = .ok second) :
    (first.equal second = true → first.fed? = second.fed?) ∧
      first.equal second = second.equal first ∧
      (∀ last : Key, first.equal second = true → second.equal last = true →
        first.equal last = true) ∧
      (first.equal first = false ↔ one.IsNaN) ∧
      (one.variant ≠ other.variant → first.equal second = false) ∧
      (∀ left right, one = .string left → other = .string right →
        (first.equal second = true ↔ left.text = right.text)) ∧
      (∀ cell receiver code otherCell otherReceiver otherCode,
        one = .method cell receiver code → other = .method otherCell otherReceiver otherCode →
          (first.equal second = true ↔ receiver = otherReceiver ∧ code = otherCode)) ∧
      first.fed?.isSome = true ∧ ∀ string, (ofStr string).fed?.isSome = true := by
  obtain rfl := value_of_ofValue firstMade
  obtain rfl := value_of_ofValue secondMade
  refine ⟨fun same => (equal_iff.mp same).1, Value.equal_comm _ _,
    fun last => equal_trans, equal_self_eq_false_iff, ?_, ?_, ?_, first.isSome_fed?,
    fun string => isSome_fed? _⟩
  · intro different
    rw [← Bool.not_eq_true]
    exact fun same => different (alike_of_equal same).1
  · intro left right isLeft isRight
    rw [equal, isLeft, isRight]
    exact beq_iff_eq
  · intro cell receiver code otherCell otherReceiver otherCode isMethod isOther
    rw [equal, isMethod, isOther]
    simp only [Value.equal, Bool.and_eq_true, beq_iff_eq]

/-- The two zeros give a hash function the same data, though their bits are different. -/
theorem zeros_feed_alike :
    let positive : Key := ⟨.double ⟨0⟩, rfl⟩
    let negative : Key := ⟨.double ⟨0x8000000000000000⟩, rfl⟩
    (ofValue (.double ⟨0⟩) = .ok positive ∧
      ofValue (.double ⟨0x8000000000000000⟩) = .ok negative) ∧
    positive.equal negative = true ∧ negative.fed? = some [.variant 3, .bits 0] := by
  intro positive negative
  have positiveMade : ofValue (.double ⟨0⟩) = .ok positive := rfl
  have negativeMade : ofValue (.double ⟨0x8000000000000000⟩) = .ok negative := rfl
  have same : positive.equal negative = true := by decide
  have fed := (equality_coheres_with_hashing positiveMade negativeMade).1 same
  exact ⟨⟨positiveMade, negativeMade⟩, same, fed.symm⟩

end Admitted

end Key

end ScriptCore
