import Mathlib.Data.List.TakeWhile
import Mathlib.Logic.Relation
import Mathlib.Tactic.Tauto
import ScriptCore.Frame.Trace

/-!
# Reachability

Chains of references as a relation on cells, and the search that computes them.  A search
among `size` cells finds exactly what can be reached, each cell once, provided that no
reference leads to a cell that was never made.
-/

namespace ScriptCore

open Relation

namespace Heap

/-- A cell holds a reference to another. -/
def Refers (heap : Heap) (holder id : CellId) : Prop :=
  id ∈ heap.referencesOf holder

instance (heap : Heap) (holder id : CellId) : Decidable (heap.Refers holder id) :=
  inferInstanceAs (Decidable (id ∈ heap.referencesOf holder))

/-- A chain of references leads from a cell to another. -/
def Reaches (heap : Heap) : CellId → CellId → Prop :=
  ReflTransGen heap.Refers

/-- A chain of references leads to a cell from one of several starts. -/
def ReachedFrom (heap : Heap) (starts : List CellId) (id : CellId) : Prop :=
  ∃ start ∈ starts, heap.Reaches start id

theorem ReachedFrom.of_mem {heap : Heap} {starts : List CellId} {id : CellId}
    (member : id ∈ starts) : heap.ReachedFrom starts id :=
  ⟨id, member, .refl⟩

theorem ReachedFrom.trans {heap : Heap} {starts : List CellId} {id further : CellId}
    (reached : heap.ReachedFrom starts id) (onward : heap.Reaches id further) :
    heap.ReachedFrom starts further := by
  obtain ⟨start, member, chain⟩ := reached
  exact ⟨start, member, chain.trans onward⟩

theorem ReachedFrom.tail {heap : Heap} {starts : List CellId} {id further : CellId}
    (reached : heap.ReachedFrom starts id) (edge : heap.Refers id further) :
    heap.ReachedFrom starts further :=
  reached.trans (.single edge)

theorem ReachedFrom.mono {heap : Heap} {starts more : List CellId} {id : CellId}
    (subset : starts ⊆ more) (reached : heap.ReachedFrom starts id) :
    heap.ReachedFrom more id := by
  obtain ⟨start, member, chain⟩ := reached
  exact ⟨start, subset member, chain⟩

theorem ReachedFrom.cases_last {heap : Heap} {starts : List CellId} {id : CellId}
    (reached : heap.ReachedFrom starts id) :
    id ∈ starts ∨ ∃ holder, heap.ReachedFrom starts holder ∧ heap.Refers holder id := by
  obtain ⟨start, member, chain⟩ := reached
  rcases ReflTransGen.cases_tail chain with rfl | ⟨holder, before, edge⟩
  · exact Or.inl member
  · exact Or.inr ⟨holder, ⟨start, member, before⟩, edge⟩

/-- What is closed under references and holds the starts holds all that is reached. -/
theorem ReachedFrom.induct {heap : Heap} {starts : List CellId} {motive : CellId → Prop}
    (start : ∀ id ∈ starts, motive id)
    (step : ∀ holder id, motive holder → heap.Refers holder id → motive id)
    {id : CellId} (reached : heap.ReachedFrom starts id) : motive id := by
  obtain ⟨first, member, chain⟩ := reached
  induction chain with
  | refl => exact start first member
  | tail _ edge ih => exact step _ _ ih edge

theorem Reaches.mono {before after : Heap} {id further : CellId}
    (fewer : ∀ holder target, after.Refers holder target → before.Refers holder target)
    (chain : after.Reaches id further) : before.Reaches id further :=
  ReflTransGen.mono fewer _ _ chain

theorem get?_isSome_of_refers {heap : Heap} {holder id : CellId}
    (edge : heap.Refers holder id) : ∃ cell, heap.get? holder = some cell := by
  cases found : heap.get? holder with
  | none => simp [Refers, referencesOf, found, Cell.referencesOf?] at edge
  | some cell => exact ⟨cell, rfl⟩

theorem refers_iff_of_get?_eq {before after : Heap} {holder : CellId}
    (same : after.get? holder = before.get? holder) (id : CellId) :
    after.Refers holder id ↔ before.Refers holder id := by
  simp only [Refers, referencesOf, same]

end Heap

namespace Marks

/-- The number of cells that are not marked. -/
def room (marks : Marks) : Nat :=
  marks.marked.toList.count false

theorem contains_empty (size : Nat) (id : CellId) : (empty size).contains id = false := by
  by_cases inside : id < size
  · simp [empty, contains, inside]
  · simp [empty, contains, inside]

@[simp]
theorem size_insert (marks : Marks) (id : CellId) :
    (marks.insert id).marked.size = marks.marked.size := by
  simp [insert]

theorem room_empty (size : Nat) : (empty size).room = size := by
  simp [empty, room]

theorem room_insert {marks : Marks} {id : CellId} (inside : id < marks.marked.size)
    (unmarked : marks.contains id = false) : (marks.insert id).room + 1 = marks.room := by
  have entry : marks.marked[id] = false := by
    simpa [contains, inside] using unmarked
  have listed : id < marks.marked.toList.length := by simpa using inside
  have positive : 0 < marks.marked.toList.count false :=
    List.count_pos_iff.mpr (entry ▸ by simp)
  simp only [room, insert, Array.toList_setIfInBounds, List.count_set listed,
    Array.getElem_toList, entry]
  simp only [beq_self_eq_true, if_true, Bool.true_eq_false, beq_iff_eq, if_false]
  omega

theorem contains_of_room_eq_zero {marks : Marks} (full : marks.room = 0) {id : CellId}
    (inside : id < marks.marked.size) : marks.contains id = true := by
  have absent : false ∉ marks.marked.toList := List.count_eq_zero.mp full
  cases entry : marks.marked[id] with
  | true => simp [contains, inside, entry]
  | false => exact absurd (entry ▸ by simp) absent

theorem contains_foldl_insert (ids : List CellId) (marks : Marks)
    (inside : ∀ id ∈ ids, id < marks.marked.size) (id : CellId) :
    (ids.foldl insert marks).contains id = true ↔ id ∈ ids ∨ marks.contains id = true := by
  induction ids generalizing marks with
  | nil => simp
  | cons first rest ih =>
      have restInside : ∀ id ∈ rest, id < (marks.insert first).marked.size := by
        intro id member
        simpa using inside id (List.mem_cons_of_mem first member)
      rw [List.foldl_cons, ih (marks.insert first) restInside,
        marks.contains_insert (inside first List.mem_cons_self)]
      simp only [Bool.or_eq_true, beq_iff_eq, List.mem_cons]
      tauto

theorem contains_ofList {size : Nat} {ids : List CellId} (inside : ∀ id ∈ ids, id < size)
    (id : CellId) : (ofList size ids).contains id = true ↔ id ∈ ids := by
  have bounded : ∀ id ∈ ids, id < (empty size).marked.size := by
    simpa [empty] using inside
  rw [ofList, contains_foldl_insert ids (empty size) bounded, contains_empty]
  simp

end Marks

section Search

variable {next : CellId → List CellId}

/-- Where a search goes on: at the first pending cell that is not marked. -/
theorem dropWhile_marked_eq_cons {marks : Marks} {pending rest : List CellId} {first : CellId}
    (unmarked : pending.dropWhile marks.contains = first :: rest) :
    (∀ id ∈ first :: rest, id ∈ pending) ∧ marks.contains first = false := by
  constructor
  · intro id member
    exact (List.dropWhile_suffix _).subset (unmarked ▸ member)
  · simpa [unmarked] using List.head?_dropWhile_not marks.contains pending

theorem pending_inside {size : Nat} {pending rest : List CellId} {first : CellId}
    (startsInside : ∀ id ∈ pending, id < size)
    (nextInside : ∀ holder, ∀ id ∈ next holder, id < size)
    (subset : ∀ id ∈ first :: rest, id ∈ pending) :
    ∀ id ∈ next first ++ rest, id < size := by
  intro id member
  rcases List.mem_append.mp member with child | waiting
  · exact nextInside first id child
  · exact startsInside id (subset id (List.mem_cons_of_mem first waiting))

/-- Whatever a search finds can be reached from what was pending. -/
theorem search_sound {limit : Nat} {marks : Marks} {pending : List CellId} {id : CellId}
    (found : id ∈ search next limit marks pending) :
    ∃ start ∈ pending, ReflTransGen (fun holder target => target ∈ next holder) start id := by
  induction limit generalizing marks pending with
  | zero => simp [search] at found
  | succ limit ih =>
      unfold search at found
      cases unmarked : pending.dropWhile marks.contains with
      | nil => simp [unmarked] at found
      | cons first rest =>
          obtain ⟨subset, -⟩ := dropWhile_marked_eq_cons unmarked
          rw [unmarked] at found
          rcases List.mem_cons.mp found with rfl | later
          · exact ⟨id, subset id List.mem_cons_self, .refl⟩
          · obtain ⟨start, member, chain⟩ := ih later
            rcases List.mem_append.mp member with child | waiting
            · exact ⟨first, subset first List.mem_cons_self, .head child chain⟩
            · exact ⟨start, subset start (List.mem_cons_of_mem first waiting), chain⟩

theorem search_nodup {size limit : Nat} {marks : Marks} {pending : List CellId}
    (sized : marks.marked.size = size) (startsInside : ∀ id ∈ pending, id < size)
    (nextInside : ∀ holder, ∀ id ∈ next holder, id < size) :
    (search next limit marks pending).Nodup ∧
      ∀ id ∈ search next limit marks pending, marks.contains id = false := by
  induction limit generalizing marks pending with
  | zero => simp [search]
  | succ limit ih =>
      unfold search
      cases unmarked : pending.dropWhile marks.contains with
      | nil => simp
      | cons first rest =>
          obtain ⟨subset, firstUnmarked⟩ := dropWhile_marked_eq_cons unmarked
          have firstInside : first < marks.marked.size :=
            sized ▸ startsInside first (subset first List.mem_cons_self)
          have pendingInside := pending_inside startsInside nextInside subset
          obtain ⟨distinct, fresh⟩ :=
            @ih (marks.insert first) _ (by simpa using sized) pendingInside
          constructor
          · refine List.nodup_cons.mpr ⟨?_, distinct⟩
            intro again
            have := fresh first again
            simp [marks.contains_insert firstInside] at this
          · intro id member
            rcases List.mem_cons.mp member with rfl | later
            · exact firstUnmarked
            · have := fresh id later
              rw [marks.contains_insert firstInside] at this
              exact (Bool.or_eq_false_iff.mp this).2

/-- With room for all unmarked cells a search finds what was pending, and with each cell all
that follows it. -/
theorem search_closed {size limit : Nat} {marks : Marks} {pending : List CellId}
    (sized : marks.marked.size = size) (startsInside : ∀ id ∈ pending, id < size)
    (nextInside : ∀ holder, ∀ id ∈ next holder, id < size) (enough : marks.room ≤ limit) :
    (∀ id ∈ pending,
      marks.contains id = true ∨ id ∈ search next limit marks pending) ∧
    ∀ holder ∈ search next limit marks pending, ∀ id ∈ next holder,
      marks.contains id = true ∨ id ∈ search next limit marks pending := by
  induction limit generalizing marks pending with
  | zero =>
      refine ⟨fun id member => Or.inl ?_, by simp [search]⟩
      exact Marks.contains_of_room_eq_zero (Nat.le_zero.mp enough)
        (sized ▸ startsInside id member)
  | succ limit ih =>
      unfold search
      cases unmarked : pending.dropWhile marks.contains with
      | nil =>
          refine ⟨fun id member => Or.inl ?_, by simp⟩
          exact List.dropWhile_eq_nil_iff.mp unmarked id member
      | cons first rest =>
          obtain ⟨subset, firstUnmarked⟩ := dropWhile_marked_eq_cons unmarked
          have firstInside : first < marks.marked.size :=
            sized ▸ startsInside first (subset first List.mem_cons_self)
          have pendingInside := pending_inside startsInside nextInside subset
          have roomLeft := Marks.room_insert firstInside firstUnmarked
          obtain ⟨pendingFound, closed⟩ :=
            @ih (marks.insert first) _ (by simpa using sized) pendingInside (by omega)
          have widen : ∀ id, (marks.insert first).contains id = true ∨
              id ∈ search next limit (marks.insert first) (next first ++ rest) →
              marks.contains id = true ∨
                id ∈ first :: search next limit (marks.insert first) (next first ++ rest) := by
            intro id known
            rw [marks.contains_insert firstInside] at known
            simp only [Bool.or_eq_true, beq_iff_eq, List.mem_cons] at known ⊢
            tauto
          constructor
          · intro id member
            rw [← List.takeWhile_append_dropWhile (p := marks.contains) (l := pending)]
              at member
            rcases List.mem_append.mp member with skipped | kept
            · exact Or.inl (List.mem_takeWhile_imp skipped)
            · rw [unmarked] at kept
              rcases List.mem_cons.mp kept with rfl | waiting
              · exact Or.inr List.mem_cons_self
              · exact widen id (pendingFound id (List.mem_append_right _ waiting))
          · intro holder member id child
            rcases List.mem_cons.mp member with rfl | later
            · exact widen id (pendingFound id (List.mem_append_left _ child))
            · exact widen id (closed holder later id child)

/-- A search among all cells finds exactly what can be reached. -/
theorem mem_reachable_iff {size : Nat} {starts : List CellId}
    (startsInside : ∀ id ∈ starts, id < size)
    (nextInside : ∀ holder, ∀ id ∈ next holder, id < size) (id : CellId) :
    id ∈ reachable size next starts ↔
      ∃ start ∈ starts, ReflTransGen (fun holder target => target ∈ next holder) start id := by
  have sized : (Marks.empty size).marked.size = size := by simp [Marks.empty]
  obtain ⟨startsFound, closed⟩ := search_closed sized startsInside nextInside
    (Nat.le_of_eq (Marks.room_empty size))
  simp only [Marks.contains_empty, Bool.false_eq_true, false_or] at startsFound closed
  constructor
  · exact search_sound
  · rintro ⟨start, member, chain⟩
    induction chain with
    | refl => exact startsFound start member
    | tail _ edge ih => exact closed _ ih _ edge

theorem reachable_nodup {size : Nat} {starts : List CellId}
    (startsInside : ∀ id ∈ starts, id < size)
    (nextInside : ∀ holder, ∀ id ∈ next holder, id < size) :
    (reachable size next starts).Nodup :=
  (search_nodup (by simp [Marks.empty]) startsInside nextInside).1

end Search

end ScriptCore
