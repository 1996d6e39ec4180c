import Mathlib.Algebra.Order.Ring.Nat
import Mathlib.Data.List.Lex
import Mathlib.Order.Monotone.Basic
import ScriptCore.Proofs.Pools
import ScriptCore.Proofs.TextOrder

/-!
# Bytes and scalar values

The encoding of a scalar value begins with a byte that tells how many follow, and a longer encoding
begins with a greater byte; those that follow hold six bits each, the highest first.  So encodings
are ordered as the values are, and none is the beginning of another one.  Texts are therefore
ordered by their scalar values, though it is their bytes that are compared.
-/

namespace ScriptCore

namespace Text

/-- The scalar values of the characters of a text. -/
def scalars (text : String) : List Nat :=
  text.toList.map Char.toNat

/-- How many bytes follow the first one of the encoding of a value. -/
def following (value : Nat) : Nat :=
  if value ≤ 0x7f then 0 else if value ≤ 0x7ff then 1 else if value ≤ 0xffff then 2 else 3

/-- What marks the first byte of an encoding, by the number of those that follow. -/
def leadMark : Nat → Nat
  | 0 => 0
  | 1 => 0xc0
  | 2 => 0xe0
  | _ => 0xf0

/-- The last bits of a value, six to a byte. -/
def sextets : Nat → Nat → List Nat
  | 0, _ => []
  | count + 1, value => (value / 64 ^ count % 64 + 0x80) :: sextets count value

/-- The bytes that a value is encoded in. -/
def encoding (value : Nat) : List Nat :=
  (value / 64 ^ following value + leadMark (following value)) :: sextets (following value) value

section Encoding

variable {low high : Nat}

theorem map_toNat_utf8EncodeChar (char : Char) :
    (String.utf8EncodeChar char).map UInt8.toNat = encoding char.toNat := by
  have bound : char.toNat < 0x110000 := by
    rcases char.valid with low | ⟨-, high⟩
    · exact Nat.lt_trans low (by decide)
    · exact high
  simp only [String.utf8EncodeChar, encoding, following, Char.toNat_val]
  generalize char.toNat = value at bound
  -- One case for each length, and one equation for each byte.
  split_ifs <;>
    simp only [List.map_cons, List.map_nil, UInt8.toNat_ofNat', sextets, leadMark,
      List.cons.injEq, and_true] <;>
    omega

/-- Of two values that differ in their last bits only, the smaller one has these first. -/
theorem sextets_append_lt {count : Nat} (same : low / 64 ^ count = high / 64 ^ count)
    (less : low < high) (rest more : List Nat) :
    sextets count low ++ rest < sextets count high ++ more := by
  induction count with
  | zero =>
      rw [Nat.pow_zero, Nat.div_one, Nat.div_one] at same
      exact absurd same (Nat.ne_of_lt less)
  | succ count ih =>
      rw [Nat.pow_succ, ← Nat.div_div_eq_div_mul, ← Nat.div_div_eq_div_mul] at same
      have ordered : low / 64 ^ count ≤ high / 64 ^ count :=
        Nat.div_le_div_right (Nat.le_of_lt less)
      rw [sextets, sextets, List.cons_append, List.cons_append, List.cons_lt_cons_iff]
      rcases Nat.eq_or_lt_of_le ordered with equal | above
      · exact Or.inr ⟨by rw [equal], ih equal⟩
      · exact Or.inl (by omega)

theorem following_le_of_lt (less : low < high) : following low ≤ following high := by
  unfold following
  split_ifs <;> omega

/-- The first byte of a longer encoding is greater. -/
theorem lead_lt_of_following_lt (longer : following low < following high) :
    low / 64 ^ following low + leadMark (following low) <
      high / 64 ^ following high + leadMark (following high) := by
  revert longer
  unfold following
  split_ifs <;> simp only [leadMark] <;> omega

/-- The encoding of the smaller value comes first, whatever follows. -/
theorem encoding_append_lt (less : low < high) (rest more : List Nat) :
    encoding low ++ rest < encoding high ++ more := by
  rw [encoding, encoding, List.cons_append, List.cons_append, List.cons_lt_cons_iff]
  rcases Nat.eq_or_lt_of_le (following_le_of_lt less) with same | longer
  · rw [← same]
    have ordered : low / 64 ^ following low ≤ high / 64 ^ following low :=
      Nat.div_le_div_right (Nat.le_of_lt less)
    rcases Nat.eq_or_lt_of_le ordered with equal | above
    · exact Or.inr ⟨by rw [equal], sextets_append_lt equal less rest more⟩
    · exact Or.inl (Nat.add_lt_add_right above _)
  · exact Or.inl (lead_lt_of_following_lt longer)

/-- Sequences of values are ordered as their encodings. -/
theorem strictMono_flatMap_encoding : StrictMono (List.flatMap encoding) := by
  intro left right less
  induction left generalizing right with
  | nil =>
      cases right with
      | nil => exact absurd less (lt_irrefl _)
      | cons high highs => exact List.nil_lt_cons _ _
  | cons low lows ih =>
      cases right with
      | nil => exact absurd less (List.not_lt_nil _)
      | cons high highs =>
          rw [List.flatMap_cons, List.flatMap_cons]
          rcases List.cons_lt_cons_iff.mp less with smaller | ⟨rfl, later⟩
          · exact encoding_append_lt smaller _ _
          · exact List.append_left_lt (ih later)

end Encoding

section Order

variable {left right : String}

theorem map_toNat_bytes (text : String) :
    (bytes text).map UInt8.toNat = (scalars text).flatMap encoding := by
  rw [bytes, scalars, List.map_flatMap, List.flatMap_map]
  exact List.flatMap_congr fun char _ => map_toNat_utf8EncodeChar char

theorem map_toNat_lt_iff (first second : List UInt8) :
    first.map UInt8.toNat < second.map UInt8.toNat ↔ first < second := by
  induction first generalizing second with
  | nil => cases second <;> simp
  | cons low lows ih =>
      cases second with
      | nil => simp
      | cons high highs =>
          simp only [List.map_cons, List.cons_lt_cons_iff, ih, UInt8.lt_iff_toNat_lt,
            UInt8.toNat_inj]

theorem bytes_lt_iff : bytes left < bytes right ↔ scalars left < scalars right := by
  rw [← map_toNat_lt_iff, map_toNat_bytes, map_toNat_bytes, strictMono_flatMap_encoding.lt_iff_lt]

theorem scalars_inj : scalars left = scalars right ↔ left = right := by
  have injective : Function.Injective Char.toNat := fun _ _ same => Char.toNat_inj.mp same
  rw [scalars, scalars, (List.map_injective_iff.mpr injective).eq_iff, String.toList_inj]

/-- To compare the bytes of texts is to compare their scalar values. -/
theorem compare_eq_scalars (left right : String) :
    compare left right = compareOfLessAndEq (scalars left) (scalars right) := by
  rw [compare, compareBytes_eq, compareOfLessAndEq, compareOfLessAndEq]
  simp only [bytes_lt_iff, bytes_inj, scalars_inj]

theorem compare_eq_lt_iff : compare left right = .lt ↔ scalars left < scalars right := by
  rw [compare_eq_scalars, compareOfLessAndEq_eq_lt]

theorem compare_eq_eq_iff : compare left right = .eq ↔ left = right := by
  rw [compare_eq_scalars, compareOfLessAndEq_eq_eq le_refl not_le, scalars_inj]

theorem compare_swap (left right : String) : compare right left = (compare left right).swap := by
  rcases lt_trichotomy (scalars left) (scalars right) with less | same | more
  · rw [compare_eq_lt_iff.mpr less]
    exact compare_eq_gt_iff.mpr (bytes_lt_iff.mpr less)
  · obtain rfl := scalars_inj.mp same
    rw [compare_eq_eq_iff.mpr rfl]
    rfl
  · rw [compare_eq_lt_iff.mpr more, compare_eq_gt_iff.mpr (bytes_lt_iff.mpr more)]
    rfl

theorem isLE_compare_iff : (compare left right).isLE = true ↔ scalars left ≤ scalars right := by
  rw [Ordering.isLE_iff_ne_gt, ← not_lt, ← bytes_lt_iff, ← compare_eq_gt_iff]

end Order

end Text

namespace Str

/-- Strings that came from pools or from elsewhere are one instance only if their texts are
equal. -/
theorem text_eq_of_same {requests : List Request} {first second : Request × Str}
    (given : first ∈ ({} : Pools).given requests) (also : second ∈ ({} : Pools).given requests)
    (same : first.2.same second.2 = true) : first.2.text = second.2.text := by
  have ordered : (({} : Pools).given requests).Pairwise fun first second =>
      first.2.same second.2 = true → first.2.text = second.2.text := by
    refine List.Pairwise.imp_of_mem (fun {first second} memFirst memSecond laws same => ?_)
      (Pools.pairwise_given {} requests Pools.distinct_new)
    obtain ⟨index, text, fromFirst, fromSecond⟩ := laws.1.mp same
    rw [Pools.text_of_mem_given {} requests memFirst, Pools.text_of_mem_given {} requests memSecond,
      fromFirst, fromSecond]
  refine List.Pairwise.forall_of_forall_of_flip (fun _ _ _ => rfl) ordered
    (ordered.imp fun {first second} laws same => ?_) given also same
  exact (laws (beq_iff_eq.mpr (beq_iff_eq.mp same).symm)).symm

/-- Comparing strings is coherent.  They are equal exactly if their texts are, and with strings that
were asked for, from any pool or elsewhere, it makes no difference to look at the instances first.
They are totally ordered, alike by all ways to compare them, and the order of the bytes of their
texts is that of the scalar values. -/
theorem comparison_is_coherent :
    (∀ left right : Str, left.equal right = true ↔ left.text = right.text) ∧
    (∀ requests, ∀ first ∈ ({} : Pools).given requests, ∀ second ∈ ({} : Pools).given requests,
      first.2.equalAtOnce second.2 = first.2.equal second.2) ∧
    (∀ left right : Str, left.compare right = .eq ↔ left.equal right = true) ∧
    (∀ left right : Str, right.compare left = (left.compare right).swap) ∧
    (∀ first second third : Str, (first.compare second).isLE = true →
      (second.compare third).isLE = true → (first.compare third).isLE = true) ∧
    (∀ left right : Str, left.compare? right = some (left.compare right)) ∧
    (∀ left right : Str, left.less right = true ↔ left.compare right = .lt) ∧
    ∀ left right : Str, left.compare right =
      compareOfLessAndEq (Text.scalars left.text) (Text.scalars right.text) := by
  have equalIff : ∀ left right : Str, left.equal right = true ↔ left.text = right.text :=
    fun left right => beq_iff_eq
  refine ⟨equalIff, fun requests first given second also => ?_,
    fun left right => Text.compare_eq_eq_iff.trans (equalIff left right).symm,
    fun left right => Text.compare_swap left.text right.text,
    fun first second third before after => ?_, fun _ _ => rfl, fun left right => ?_,
    fun left right => Text.compare_eq_scalars left.text right.text⟩
  · rw [equalAtOnce]
    cases same : first.2.same second.2 with
    | true => exact ((equalIff _ _).mpr (text_eq_of_same given also same)).symm
    | false => rfl
  · exact Text.isLE_compare_iff.mpr
      ((Text.isLE_compare_iff.mp before).trans (Text.isLE_compare_iff.mp after))
  · rw [less, compare?, beq_iff_eq, Option.some.injEq]

/-- Texts of characters of one to four bytes, some the beginning of others. -/
def mixedRequests : List Request :=
  [.pooled 0 "aé", .plain "aé", .pooled 0 "aé", .plain "aé\uffff", .pooled 1 "aé😀"]

theorem mixedRequests_compare :
    (({} : Pools).given mixedRequests)[0].2.equalAtOnce
        (({} : Pools).given mixedRequests)[2].2 =
      (({} : Pools).given mixedRequests)[0].2.equal (({} : Pools).given mixedRequests)[2].2 ∧
    (({} : Pools).given mixedRequests)[0].2.same (({} : Pools).given mixedRequests)[2].2 = true ∧
    (({} : Pools).given mixedRequests)[1].2.compare
        (({} : Pools).given mixedRequests)[3].2 = .lt ∧
    (({} : Pools).given mixedRequests)[3].2.compare
        (({} : Pools).given mixedRequests)[4].2 = .lt ∧
    ((({} : Pools).given mixedRequests)[1].2.compare
      (({} : Pools).given mixedRequests)[4].2).isLE = true := by
  obtain ⟨-, atOnce, -, -, trans, -⟩ := comparison_is_coherent
  have first : (({} : Pools).given mixedRequests)[1].2.compare
      (({} : Pools).given mixedRequests)[3].2 = .lt := by decide +kernel
  have second : (({} : Pools).given mixedRequests)[3].2.compare
      (({} : Pools).given mixedRequests)[4].2 = .lt := by decide +kernel
  refine ⟨atOnce mixedRequests _ (List.getElem_mem _) _ (List.getElem_mem _), by decide +kernel,
    first, second, trans _ _ _ (congrArg Ordering.isLE first) (congrArg Ordering.isLE second)⟩

end Str

end ScriptCore
