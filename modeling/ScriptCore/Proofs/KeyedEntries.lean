import ScriptCore.Key

/-!
# Keyed entries as a finite map

Equality of values is symmetric and transitive, and fails to be reflexive only for a NaN.  So
entries whose keys are pairwise unequal are a finite map, and a NaN is never found in one.
-/

namespace ScriptCore

namespace Binary64

theorem equal_symm {left right : Binary64} (same : left.equal right = true) :
    right.equal left = true := by
  unfold equal at same ⊢
  grind

theorem equal_trans {left middle right : Binary64} (first : left.equal middle = true)
    (second : middle.equal right = true) : left.equal right = true := by
  have zero : ∀ {one other : Binary64}, one.bits = other.bits → one.isZero = other.isZero := by
    intro one other same
    rw [isZero, isZero, magnitude, magnitude, same]
  unfold equal at first second ⊢
  simp only [Bool.and_eq_true, Bool.or_eq_true, beq_iff_eq] at first second ⊢
  obtain ⟨⟨leftNumber, -⟩, firstSame⟩ := first
  obtain ⟨⟨-, rightNumber⟩, secondSame⟩ := second
  refine ⟨⟨leftNumber, rightNumber⟩, ?_⟩
  rcases firstSame with bits | ⟨leftZero, middleZero⟩
  · rcases secondSame with further | ⟨middleZero, rightZero⟩
    · exact .inl (bits.trans further)
    · exact .inr ⟨(zero bits).trans middleZero, rightZero⟩
  · rcases secondSame with further | ⟨-, rightZero⟩
    · exact .inr ⟨leftZero, (zero further).symm.trans middleZero⟩
    · exact .inr ⟨leftZero, rightZero⟩

end Binary64

namespace Value

theorem equal_symm {left right : Value} (same : left.equal right = true) :
    right.equal left = true := by
  -- One case for each variant that both are of, in the order of the definition.
  unfold equal at same
  split at same
  case h_4 left right => exact Binary64.equal_symm same
  case h_15 => cases same
  all_goals simp_all [equal, Str.equal]

theorem equal_trans {left middle right : Value} (first : left.equal middle = true)
    (second : middle.equal right = true) : left.equal right = true := by
  unfold equal at second
  split at second
  case h_4 middle right =>
      cases left with
      | double left => exact Binary64.equal_trans first second
      | _ => cases first
  case h_1 => exact first
  case h_15 => cases second
  all_goals
    cases left <;> first
      | cases first
      | simp_all [equal, Str.equal]

/-- Equal values are equal to the same values. -/
theorem equal_congr {left right : Value} (same : left.equal right = true) (other : Value) :
    left.equal other = right.equal other := by
  rw [Bool.eq_iff_iff]
  exact ⟨equal_trans (equal_symm same), equal_trans same⟩

theorem equal_comm (left right : Value) : left.equal right = right.equal left := by
  rw [Bool.eq_iff_iff]
  exact ⟨equal_symm, equal_symm⟩

/-- Only values of one variant are equal. -/
theorem isHashable_of_equal {left right : Value} (same : left.equal right = true) :
    left.isHashable = right.isHashable := by
  unfold equal at same
  split at same
  case h_15 => cases same
  all_goals rfl

/-- A NaN equals nothing, not even itself. -/
theorem equal_double_of_isNaN {double : Binary64} (nan : double.isNaN = true) (other : Value) :
    other.equal (.double double) = false := by
  cases other with
  | double number => simp [equal, Binary64.equal, nan]
  | _ => rfl

end Value

namespace Key

theorem equal_symm {left right : Key} (same : left.equal right = true) :
    right.equal left = true :=
  Value.equal_symm same

theorem equal_trans {left middle right : Key} (first : left.equal middle = true)
    (second : middle.equal right = true) : left.equal right = true :=
  Value.equal_trans first second

/-- A key unequal to another is unequal to all that equal it. -/
theorem unequal_trans {stored key other : Key} (different : stored.equal key = false)
    (same : key.equal other = true) : stored.equal other = false := by
  refine Bool.eq_false_iff.mpr fun equal => ?_
  rw [equal_trans equal (equal_symm same)] at different
  cases different

end Key

namespace Entries

variable {entries before after : Entries} {key stored other : Key} {value old : Value}

/-- Entries no key of which equals `key`. -/
def Lacks (entries : Entries) (key : Key) : Prop :=
  ∀ entry ∈ entries, entry.1.equal key = false

/-- Entries whose keys are pairwise unequal. -/
def Distinct (entries : Entries) : Prop :=
  entries.Pairwise fun earlier later => earlier.1.equal later.1 = false

/-- The entry that a key finds, and what comes before and after it. -/
structure Splits (entries : Entries) (key : Key) (before : Entries) (stored : Key) (value : Value)
    (after : Entries) : Prop where
  whole : entries = before ++ (stored, value) :: after
  passed : before.Lacks key
  found : stored.equal key = true

theorem find?_eq_none_of_lacks (lacks : entries.Lacks key) : entries.find? key = none := by
  induction entries with
  | nil => rfl
  | cons entry rest ih =>
      obtain ⟨first, others⟩ := List.forall_mem_cons.mp lacks
      simp [find?, first, ih others]

theorem insert_of_lacks (lacks : entries.Lacks key) (value : Value) :
    entries.insert key value = entries ++ [(key, value)] := by
  induction entries with
  | nil => rfl
  | cons entry rest ih =>
      obtain ⟨first, others⟩ := List.forall_mem_cons.mp lacks
      simp [insert, first, ih others]

theorem erase_of_lacks (lacks : entries.Lacks key) : entries.erase key = entries := by
  induction entries with
  | nil => rfl
  | cons entry rest ih =>
      obtain ⟨first, others⟩ := List.forall_mem_cons.mp lacks
      simp [erase, first, ih others]

/-- Entries that a key is not found in are passed over. -/
theorem find?_append_of_lacks (lacks : before.Lacks key) (after : Entries) :
    find? (before ++ after) key = after.find? key := by
  induction before with
  | nil => rfl
  | cons entry rest ih =>
      obtain ⟨first, others⟩ := List.forall_mem_cons.mp lacks
      simp [find?, first, ih others]

theorem Splits.find?_eq (splits : entries.Splits key before stored old after) :
    entries.find? key = some old := by
  rw [splits.whole, find?_append_of_lacks splits.passed]
  simp [find?, splits.found]

/-- A store under a key that is found keeps the stored key and replaces the value. -/
theorem Splits.insert_eq (splits : entries.Splits key before stored old after) (value : Value) :
    entries.insert key value = before ++ (stored, value) :: after := by
  obtain ⟨rfl, passed, found⟩ := splits
  induction before with
  | nil => simp [insert, found]
  | cons entry rest ih =>
      obtain ⟨first, others⟩ := List.forall_mem_cons.mp passed
      simp [insert, first, ih others]

/-- Exactly the entry that is found is removed. -/
theorem Splits.erase_eq (splits : entries.Splits key before stored old after) :
    entries.erase key = before ++ after := by
  obtain ⟨rfl, passed, found⟩ := splits
  induction before with
  | nil => simp [erase, found]
  | cons entry rest ih =>
      obtain ⟨first, others⟩ := List.forall_mem_cons.mp passed
      simp [erase, first, ih others]

/-- A key is in no entry, or it finds the first that it equals. -/
theorem lacks_or_splits (entries : Entries) (key : Key) :
    entries.Lacks key ∨
      ∃ before stored value after, entries.Splits key before stored value after := by
  induction entries with
  | nil => exact .inl fun entry member => absurd member List.not_mem_nil
  | cons entry rest ih =>
      obtain ⟨stored, value⟩ := entry
      cases same : stored.equal key with
      | true => exact .inr ⟨[], stored, value, rest, rfl, by simp [Lacks], same⟩
      | false =>
          rcases ih with lacks | ⟨before, further, found, after, whole, passed, equal⟩
          · exact .inl (List.forall_mem_cons.mpr ⟨same, lacks⟩)
          · refine .inr ⟨(stored, value) :: before, further, found, after, ?_, ?_, equal⟩
            · rw [whole]
              rfl
            · exact List.forall_mem_cons.mpr ⟨same, passed⟩

theorem Lacks.congr (lacks : entries.Lacks key) (same : key.equal other = true) :
    entries.Lacks other := by
  intro entry member
  exact Key.unequal_trans (lacks entry member) same

/-- After a store every key equal to the stored one finds the value, and every other key what it
found before. -/
theorem find?_insert (entries : Entries) (key other : Key) (value : Value) :
    (entries.insert key value).find? other =
      if key.equal other then some value else entries.find? other := by
  induction entries with
  | nil => rfl
  | cons entry rest ih =>
      obtain ⟨stored, old⟩ := entry
      cases same : stored.equal key with
      | true =>
          have agree : stored.equal other = key.equal other := Value.equal_congr same other.value
          cases asked : key.equal other with
          | true => simp [insert, find?, same, agree, asked]
          | false => simp [insert, find?, same, agree, asked]
      | false =>
          cases asked : key.equal other with
          | true =>
              have passed : stored.equal other = false := Key.unequal_trans same asked
              simp [insert, find?, same, passed, asked, ih]
          | false => simp [insert, find?, same, asked, ih]

/-- After a removal no key equal to the removed one is found, and every other key finds what it
found before. -/
theorem find?_erase (distinct : entries.Distinct) (key other : Key) :
    (entries.erase key).find? other =
      if key.equal other then none else entries.find? other := by
  induction entries with
  | nil => simp [erase, find?]
  | cons entry rest ih =>
      obtain ⟨stored, value⟩ := entry
      obtain ⟨first, others⟩ := List.pairwise_cons.mp distinct
      cases same : stored.equal key with
      | true =>
          have agree : stored.equal other = key.equal other := Value.equal_congr same other.value
          cases asked : key.equal other with
          | true =>
              have missing : Lacks rest stored := by
                intro entry member
                rw [Key.equal, Value.equal_comm]
                exact first entry member
              simpa [erase, same] using
                find?_eq_none_of_lacks (missing.congr (agree.trans asked))
          | false => simp [erase, find?, same, agree, asked]
      | false =>
          cases asked : key.equal other with
          | true =>
              have passed : stored.equal other = false := Key.unequal_trans same asked
              simp [erase, find?, same, passed, asked, ih others]
          | false => simp [erase, find?, same, asked, ih others]

theorem Distinct.insert (distinct : entries.Distinct) (key : Key) (value : Value) :
    (entries.insert key value).Distinct := by
  rcases lacks_or_splits entries key with lacks | ⟨before, stored, old, after, splits⟩
  · rw [insert_of_lacks lacks]
    refine List.pairwise_append.mpr ⟨distinct, List.pairwise_singleton _ _, ?_⟩
    intro entry member last isLast
    rw [List.mem_singleton.mp isLast]
    exact lacks entry member
  · rw [splits.insert_eq]
    rw [splits.whole] at distinct
    simpa [Distinct, List.pairwise_append] using distinct

theorem Distinct.erase (distinct : entries.Distinct) (key : Key) :
    (entries.erase key).Distinct := by
  rcases lacks_or_splits entries key with lacks | ⟨before, stored, old, after, splits⟩
  · rw [erase_of_lacks lacks]
    exact distinct
  · rw [splits.erase_eq]
    rw [splits.whole] at distinct
    exact distinct.sublist ((List.sublist_cons_self _ _).append_left before)

end Entries

end ScriptCore
