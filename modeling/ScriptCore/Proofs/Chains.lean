import Mathlib.Data.List.Chain
import Mathlib.Data.List.Nodup
import Mathlib.Logic.Relation
import ScriptCore.Heap.Basic

/-!
# Chains of cells

Links that only lead down, to cells made earlier, end somewhere.  Following them meets exactly the
cells that they lead to, each once, however far one is prepared to go.
-/

namespace ScriptCore.Heap

open Relation

variable {next : CellId → Option CellId}

/-- Each number met is linked to the one before it. -/
theorem isChain_follow (next : CellId → Option CellId) (limit id : Nat) :
    (follow next limit id).IsChain fun lower upper => next lower = some upper := by
  induction limit generalizing id with
  | zero => exact .nil
  | succ limit ih =>
      rw [follow]
      cases onward : next id with
      | none => exact .singleton id
      | some further =>
          refine List.isChain_cons.mpr ⟨fun upper first => ?_, ih further⟩
          cases limit with
          | zero => cases first
          | succ limit =>
              cases first
              exact onward

variable (down : ∀ id further, next id = some further → further < id)

include down

theorem le_of_mem_follow {limit id other : Nat} (met : other ∈ follow next limit id) :
    other ≤ id := by
  induction limit generalizing id with
  | zero => cases met
  | succ limit ih =>
      rw [follow] at met
      rcases List.mem_cons.mp met with rfl | later
      · exact Nat.le_refl _
      · cases onward : next id with
        | none => simp [onward] at later
        | some further =>
            rw [onward] at later
            exact Nat.le_trans (ih later) (Nat.le_of_lt (down id further onward))

/-- No number is met twice. -/
theorem nodup_follow (limit id : Nat) : (follow next limit id).Nodup := by
  induction limit generalizing id with
  | zero => exact .nil
  | succ limit ih =>
      rw [follow]
      cases onward : next id with
      | none => exact List.nodup_singleton id
      | some further =>
          refine List.nodup_cons.mpr ⟨fun again => ?_, ih further⟩
          have above := le_of_mem_follow down again
          exact Nat.not_lt.mpr above (down id further onward)

/-- The last number met is linked to none. -/
theorem next_getLast?_follow {limit id : Nat} (enough : id < limit) :
    ∀ last ∈ (follow next limit id).getLast?, next last = none := by
  induction limit generalizing id with
  | zero => omega
  | succ limit ih =>
      intro last isLast
      rw [follow] at isLast
      cases onward : next id with
      | none =>
          simp only [onward, List.getLast?_singleton, Option.mem_def, Option.some.injEq] at isLast
          rw [← isLast]
          exact onward
      | some further =>
          have below : further < limit :=
            Nat.lt_of_lt_of_le (down id further onward) (Nat.le_of_lt_succ enough)
          refine ih below last ?_
          simp only [onward] at isLast
          cases limit with
          | zero => exact absurd below (Nat.not_lt_zero _)
          | succ limit =>
              rw [follow] at isLast ⊢
              rwa [List.getLast?_cons_cons] at isLast

theorem follow_of_lt {limit other id : Nat} (enough : id < limit) (also : id < other) :
    follow next limit id = follow next other id := by
  induction limit generalizing id other with
  | zero => omega
  | succ limit ih =>
      cases other with
      | zero => omega
      | succ other =>
          cases onward : next id with
          | none => simp [follow, onward]
          | some further =>
              have below := down id further onward
              have same : follow next limit further = follow next other further :=
                ih (Nat.lt_of_lt_of_le below (Nat.le_of_lt_succ enough))
                  (Nat.lt_of_lt_of_le below (Nat.le_of_lt_succ also))
              simp [follow, onward, same]

theorem follow_eq_cons {limit id : Nat} (inside : (next id).isSome = true → id < limit) :
    follow next (limit + 1) id =
      id :: match next id with
        | some further => follow next (limit + 1) further
        | none => [] := by
  rw [follow]
  cases onward : next id with
  | none => rfl
  | some further =>
      have below : further < limit :=
        Nat.lt_trans (down id further onward) (inside (by rw [onward]; rfl))
      exact congrArg (id :: ·) (follow_of_lt down below (Nat.lt_succ_of_lt below))

/-- A number is met when following a function that goes down exactly if it is reached by it. -/
theorem mem_follow_iff {limit id : Nat} (enough : id < limit) (other : CellId) :
    other ∈ follow next limit id ↔
      ReflTransGen (fun id further => next id = some further) id other := by
  induction limit generalizing id with
  | zero => omega
  | succ limit ih =>
      cases onward : next id with
      | none =>
          simp only [follow, onward, List.mem_singleton]
          constructor
          · rintro rfl
            exact .refl
          · intro chain
            rcases ReflTransGen.cases_head chain with same | ⟨further, link, -⟩
            · exact same.symm
            · simp [onward] at link
      | some further =>
          have below : further < limit :=
            Nat.lt_of_lt_of_le (down id further onward) (Nat.le_of_lt_succ enough)
          simp only [follow, onward, List.mem_cons, ih below]
          constructor
          · rintro (rfl | chain)
            · exact .refl
            · exact .head onward chain
          · intro chain
            rcases ReflTransGen.cases_head chain with same | ⟨met, link, rest⟩
            · exact Or.inl same.symm
            · rw [onward] at link
              cases link
              exact Or.inr rest

end ScriptCore.Heap
