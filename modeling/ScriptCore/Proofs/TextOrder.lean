import Mathlib.Data.List.Nodup
import ScriptCore.Text.Str

/-!
# The order of texts

Texts are ordered as the sequences of their bytes, and those as words in a dictionary.  No two texts
have the same bytes, so sorting texts without repeats puts each strictly before the next.
-/

namespace ScriptCore.Text

theorem toByteArray_bytes (text : String) : (bytes text).toByteArray = text.toByteArray := by
  conv_rhs => rw [← String.ofList_toList (s := text)]
  exact String.toByteArray_ofList.symm

/-- A text can be told from its bytes. -/
theorem bytes_inj {left right : String} : bytes left = bytes right ↔ left = right := by
  rw [← List.toByteArray_inj, toByteArray_bytes, toByteArray_bytes, String.toByteArray_inj]

section Comparing

theorem compareBytes_eq (left right : List UInt8) :
    compareBytes left right = compareOfLessAndEq left right := by
  induction left generalizing right with
  | nil => cases right <;> simp [compareBytes, compareOfLessAndEq]
  | cons first firsts ih =>
      cases right with
      | nil => simp [compareBytes, compareOfLessAndEq]
      | cons second seconds =>
          rw [compareBytes, ih, compareOfLessAndEq, compareOfLessAndEq]
          simp only [List.cons_lt_cons_iff, List.cons.injEq]
          rcases Std.lt_trichotomy first second with less | rfl | more
          · simp [less]
          · simp [Std.Irrefl.irrefl first]
          · have notLess : ¬first < second := Std.Asymm.asymm _ _ more
            have apart : first ≠ second := by
              rintro rfl
              exact notLess more
            simp [more, notLess, apart]

variable {left right : String}

theorem compare_eq_gt_iff : compare left right = .gt ↔ bytes right < bytes left := by
  rw [compare, compareBytes_eq]
  exact compareOfLessAndEq_eq_gt List.le_antisymm List.le_total List.not_le _ _

theorem le_iff : le left right = true ↔ bytes left ≤ bytes right := by
  rw [le, bne_iff_ne, ne_eq, compare_eq_gt_iff, List.not_lt]

end Comparing

section Sorting

variable (texts : List String)

theorem perm_sort : (sort texts).Perm texts :=
  List.mergeSort_perm texts le

theorem pairwise_sort : (sort texts).Pairwise fun left right => bytes left ≤ bytes right := by
  have sorted : (sort texts).Pairwise fun left right => le left right = true := by
    refine List.pairwise_mergeSort (fun first second third => ?_) (fun first second => ?_) texts
    · simp only [le_iff]
      exact List.le_trans
    · simpa only [Bool.or_eq_true, le_iff] using List.le_total _ _
  exact sorted.imp le_iff.mp

/-- Without repeats each text comes strictly before those after it. -/
theorem pairwise_lt_sort (distinct : texts.Nodup) :
    (sort texts).Pairwise fun left right => bytes left < bytes right := by
  have apart := (perm_sort texts).nodup_iff.mpr distinct
  refine (pairwise_sort texts).imp₂ (fun left right before different => ?_) apart
  exact Std.lt_of_le_of_ne before fun same => different (bytes_inj.mp same)

end Sorting

end ScriptCore.Text
