import ScriptCore.Proofs.Slicing

/-!
# Changing lists

Reading a list and changing it find their places in different ways: a deletion has its own range
checks, and compares the bounds of a slice before it brings them inside.  They agree on the places
they mean.
-/

namespace ScriptCore

namespace Index

/-- The positions of a sequence, counted from its beginning or back from its end. -/
def Inside (length : Nat) (position : Int) : Prop :=
  -length ≤ position ∧ position < length

instance (length : Nat) (position : Int) : Decidable (Inside length position) :=
  inferInstanceAs (Decidable (_ ∧ _))

section Places

variable {length : Nat}

/-- The range check on words, said of the integers. -/
theorem beyond_iff (fits : length < 2 ^ 63) {position : Int} {word : Int64}
    (exact : word.toInt = shifted length position) :
    (word < 0 ∨ Word.ofLength length ≤ word) ↔ ¬ Inside length position := by
  rw [Int64.lt_iff_toInt_lt, Int64.le_iff_toInt_le, Int64.toInt_zero, Word.toInt_ofLength fits,
    exact, shifted, Inside]
  split <;> omega

theorem toPlace_eq {place : Nat} {position : Int} {word : Int64}
    (exact : word.toInt = shifted length position)
    (meant : (place : Int) = shifted length position) : Word.toPlace word = place := by
  have converted : (Word.toPlace word : Int) = word.toInt := Word.toPlace_eq (by omega)
  omega

theorem resolve_of_inside {outside : Error} {place : Nat} {position : Int64}
    (fits : length < 2 ^ 63) (inside : Inside length position.toInt)
    (meant : (place : Int) = shifted length position.toInt) :
    resolve outside length position = .ok place := by
  obtain ⟨word, moved, exact⟩ := exists_shift fits position
  have allowed : ¬ (word < 0 ∨ Word.ofLength length ≤ word) :=
    fun beyond => (beyond_iff fits exact).mp beyond inside
  simp only [resolve, moved, bind, Except.bind, if_neg allowed]
  exact congrArg Except.ok (toPlace_eq exact meant)

theorem resolve_of_not_inside {outside : Error} {position : Int64} (fits : length < 2 ^ 63)
    (beyond : ¬ Inside length position.toInt) :
    resolve outside length position = .error (.error outside) := by
  obtain ⟨word, moved, exact⟩ := exists_shift fits position
  simp only [resolve, moved, bind, Except.bind, if_pos ((beyond_iff fits exact).mpr beyond)]
  rfl

/-- What is before and behind a place inside a sequence. -/
theorem exists_split {α : Type} {items : List α} {position : Int}
    (inside : Inside items.length position) :
    ∃ before item behind, items = before ++ item :: behind ∧
      (before.length : Int) = shifted items.length position := by
  obtain ⟨place, meant, within⟩ : ∃ place : Nat,
      (place : Int) = shifted items.length position ∧ place < items.length := by
    obtain ⟨low, high⟩ := inside
    refine ⟨(shifted items.length position).toNat, ?_⟩
    rw [shifted]
    split <;> omega
  refine ⟨items.take place, items[place], items.drop (place + 1), ?_, ?_⟩
  · rw [← List.drop_eq_getElem_cons within, List.take_append_drop]
  · rw [List.length_take, ← meant]
    omega

end Places

end Index

namespace Slice

section Ranges

variable {α : Type} {slice : Slice} {items chosen : List α} {places : List Nat} {start stop : Nat}

/-- With the step 1, a slice selects one block of the items. -/
theorem Selects.eq_block (selects : slice.Selects items.length places) (single : slice.stride = 1)
    (picked : Picked items places chosen) (begins : (start : Int) = slice.first items.length)
    (ends : (stop : Int) = slice.finish items.length) :
    chosen = (items.drop start).take (stop - start) := by
  have found : ∀ count place : Nat, places[count]? = some place ↔
      start + count < stop ∧ place = start + count := by
    intro count place
    rw [selects.progression, single, ← begins, ← ends, Before]
    omega
  apply List.ext_getElem?
  intro count
  rw [picked.getElem?_eq, List.getElem?_take, List.getElem?_drop]
  by_cases before : start + count < stop
  · rw [(found count _).mpr ⟨before, rfl⟩, if_pos (by omega), Option.bind_some]
  · have beyond : places[count]? = none :=
      Option.eq_none_iff_forall_ne_some.mpr fun place member =>
        before ((found count place).mp member).1
    rw [beyond, if_neg (by omega), Option.bind_none]

/-- The slice with the same bounds and no step. -/
def unstepped (slice : Slice) : Slice :=
  { slice with step := none }

theorem stride_unstepped (slice : Slice) : slice.unstepped.stride = 1 :=
  rfl

/-- An absent bound may as well be given, if its default stays where it is. -/
theorem bounded_eq {length : Nat} {default : Int64} {low high : Int}
    (stays : max low (min high (Index.shifted length default.toInt)) = default.toInt)
    (given : Option Int64) :
    bounded length default.toInt low high given =
      max low (min high (Index.shifted length (given.getD default).toInt)) := by
  cases given with
  | none => exact stays.symm
  | some position => rfl

theorem first_unstepped (slice : Slice) (length : Nat) :
    slice.unstepped.first length =
      max 0 (min (length : Int) (Index.shifted length (slice.start.getD 0).toInt)) := by
  rw [first, if_pos (by rw [stride_unstepped]; decide)]
  have stays : max 0 (min (length : Int) (Index.shifted length (0 : Int64).toInt)) =
      (0 : Int64).toInt := by
    rw [Int64.toInt_zero, Index.shifted, if_neg (by omega)]
    omega
  exact bounded_eq stays slice.start

theorem finish_unstepped (slice : Slice) {length : Nat} (fits : length < 2 ^ 63) :
    slice.unstepped.finish length =
      max 0 (min (length : Int)
        (Index.shifted length (slice.stop.getD (Word.ofLength length)).toInt)) := by
  have size := Word.toInt_ofLength fits
  have stays : max 0 (min (length : Int) (Index.shifted length (Word.ofLength length).toInt)) =
      (Word.ofLength length).toInt := by
    rw [size, Index.shifted, if_neg (by omega)]
    omega
  have bounds := bounded_eq stays slice.stop
  rw [size] at bounds
  rw [finish, if_pos (by rw [stride_unstepped]; decide)]
  exact bounds

/-- A word brought inside a sequence is a place of it, or its end. -/
theorem exists_clamped {length : Nat} (fits : length < 2 ^ 63) (word : Int64) :
    ∃ within, Word.clamp 0 (Word.ofLength length) word = .ok within ∧
      (Word.toPlace within : Int) = max 0 (min (length : Int) word.toInt) := by
  have size := Word.toInt_ofLength fits
  have ordered : (0 : Int64).toInt ≤ (Word.ofLength length).toInt := by
    rw [Int64.toInt_zero, size]
    omega
  obtain ⟨within, clamped, exact⟩ := Word.exists_clamp ordered word
  rw [Int64.toInt_zero, size] at exact
  refine ⟨within, clamped, ?_⟩
  rw [Word.toPlace_eq (by omega), exact]

/-- Removing a slice takes out the block that the slice without its step selects. -/
theorem remove_eq (fits : items.length < 2 ^ 63)
    (begins : (start : Int) = slice.unstepped.first items.length)
    (ends : (stop : Int) = slice.unstepped.finish items.length) :
    slice.remove items = .ok (items.take start ++ (items.drop start).drop (stop - start)) := by
  obtain ⟨low, lowered, lowest⟩ := Index.exists_shift fits (slice.start.getD 0)
  obtain ⟨high, raised, highest⟩ :=
    Index.exists_shift fits (slice.stop.getD (Word.ofLength items.length))
  rw [first_unstepped, ← lowest] at begins
  rw [finish_unstepped slice fits, ← highest] at ends
  simp only [remove, lowered, raised, bind, Except.bind]
  -- Bringing bounds inside keeps their order, so it does not matter that they are compared before.
  by_cases crossed : high ≤ low
  · rw [if_pos crossed]
    rw [Int64.le_iff_toInt_le] at crossed
    have empty : stop - start = 0 := by omega
    rw [empty, List.drop_zero, List.take_append_drop]
    rfl
  · rw [if_neg crossed]
    rw [Int64.le_iff_toInt_le] at crossed
    obtain ⟨near, started, lower⟩ := exists_clamped fits low
    obtain ⟨far, stopped, upper⟩ := exists_clamped fits high
    obtain rfl : Word.toPlace near = start := by omega
    obtain rfl : Word.toPlace far = stop := by omega
    simp only [started, stopped, drain]
    rw [if_pos (by omega), List.drop_drop, Nat.add_sub_cancel' (by omega)]

/-- What a slice without its step selects stands between what stays when the slice is removed. -/
theorem exists_split (slice : Slice) (fits : items.length < 2 ^ 63) :
    ∃ before selected behind, items = before ++ selected ++ behind ∧
      (before.length : Int) = slice.unstepped.first items.length ∧
      slice.unstepped.select items = .ok selected ∧
      slice.remove items = .ok (before ++ behind) := by
  have moves : slice.unstepped.step ≠ some 0 := nofun
  obtain ⟨places, found, selects⟩ := exists_positions fits moves
  obtain ⟨chosen, selected, picked⟩ := exists_select found selects
  obtain ⟨start, begins⟩ : ∃ start : Nat, (start : Int) = slice.unstepped.first items.length := by
    refine ⟨(slice.unstepped.first items.length).toNat, ?_⟩
    rw [first_unstepped]
    omega
  obtain ⟨stop, ends⟩ : ∃ stop : Nat, (stop : Int) = slice.unstepped.finish items.length := by
    refine ⟨(slice.unstepped.finish items.length).toNat, ?_⟩
    rw [finish_unstepped slice fits]
    omega
  obtain rfl := selects.eq_block slice.stride_unstepped picked begins ends
  refine ⟨items.take start, (items.drop start).take (stop - start),
    (items.drop start).drop (stop - start), ?_, ?_, selected, remove_eq fits begins ends⟩
  · rw [List.append_assoc, List.take_append_drop, List.take_append_drop]
  · rw [List.length_take, ← begins]
    rw [first_unstepped] at begins
    omega

end Ranges

end Slice

/-- The number a position counts as: a truth value is 0 or 1. -/
def Value.number? : Value → Option Int
  | .int value => some value.toInt
  | .bool value => some (if value then 1 else 0)
  | _ => none

namespace Heap

theorem contains_of_get? {heap : Heap} {id : CellId} {content : Cell}
    (found : heap.get? id = some content) : heap.contains id = true := by
  rw [contains, found]
  rfl

theorem get?_alloc_of_get? {heap : Heap} {id : CellId} {content : Cell}
    (found : heap.get? id = some content) (cell : Cell) :
    (heap.alloc cell).2.get? id = some content := by
  rw [get?_alloc_of_contains cell (contains_of_get? found), found]

/-- A slice is still written after a cell was made. -/
theorem Writes.alloc {heap : Heap} {slice : Slice} {index : Value}
    (written : heap.Writes slice index) (cell : Cell) :
    (heap.alloc cell).2.Writes slice index := by
  obtain ⟨found⟩ := written
  exact .tuple (get?_alloc_of_get? found cell)

/-- Every integer and every truth value is a position of every container. -/
theorem exists_index_eq {index : Value} {number : Int} (counts : index.number? = some number) :
    ∃ position : Int64, position.toInt = number ∧
      ∀ (heap : Heap) (container : Value),
        heap.index container index = .ok (.position position) := by
  cases index with
  | int value =>
      cases counts
      exact ⟨value, rfl, fun _ _ => rfl⟩
  | bool value =>
      cases counts
      refine ⟨if value then 1 else 0, ?_, fun _ _ => rfl⟩
      cases value <;> rfl
  | _ => cases counts

end Heap

namespace Machine

/-- Between two machines nothing differs but the items of one list.  Whatever names the list, in
another cell, in a variable or in the running evaluation, still does, and sees the new items. -/
structure Relists (cell : CellId) (items : List Value) (earlier later : Machine) : Prop where
  list : later.heap.get? cell = some (.list items)
  others : ∀ other, other ≠ cell → later.heap.get? other = earlier.heap.get? other
  outside : later = { earlier with heap := later.heap }

theorem relists_set {machine : Machine} {cell : CellId} {content : Cell}
    (found : machine.heap.get? cell = some content) (items : List Value) :
    machine.Relists cell items { machine with heap := machine.heap.set cell (.list items) } where
  list := by
    rw [Heap.get?_set, if_pos ⟨rfl, Heap.contains_of_get? found⟩]
  others other different := by
    rw [Heap.get?_set, if_neg fun same => different same.1]
  outside := rfl

end Machine

namespace Act

section Positions

variable {machine : Machine} {cell : CellId} {before behind items : List Value} {item index : Value}
  {position : Int64}

/-- An action fails with an index error and changes nothing. -/
def Misses {α : Type} (action : Act α) (machine : Machine) : Prop :=
  ∃ error, action machine = .error (.error error) machine ∧ error.kind = .indexError

section At

variable (stored : machine.heap.get? cell = some (.list (before ++ item :: behind)))
  (fits : (before ++ item :: behind).length < 2 ^ 63)
  (read : ∀ (heap : Heap) (container : Value),
    heap.index container index = .ok (.position position))
  (inside : Index.Inside (before ++ item :: behind).length position.toInt)
  (meant : (before.length : Int) =
    Index.shifted (before ++ item :: behind).length position.toInt)

include stored fits read inside meant

theorem getItem_at : getItem (.list cell) index machine = .ok item machine := by
  have here : (before ++ item :: behind)[before.length]? = some item := by simp
  simp only [getItem, heap_bind, read, ofExcept, pure_bind, Heap.listItems, stored, pick,
    Index.resolve_of_inside fits inside meant, resume, here]
  rfl

theorem setItem_at (value : Value) :
    setItem (.list cell) index value machine =
      .ok () { machine with heap := machine.heap.set cell (.list (before ++ value :: behind)) } := by
  have assigned : (before ++ item :: behind).set before.length value =
      before ++ value :: behind := by simp
  have within : before.length < (before ++ item :: behind).length := by simp
  simp only [setItem, heap_bind, read, ofExcept, pure_bind, Heap.listItems, stored,
    Index.resolve_of_inside fits inside meant, resume, if_pos within, assigned]
  rfl

theorem deleteItem_at :
    deleteItem (.list cell) index machine =
      .ok item { machine with heap := machine.heap.set cell (.list (before ++ behind)) } := by
  obtain ⟨word, moved, exact⟩ := Index.exists_shift fits position
  have allowed : ¬ (word < 0 ∨ Word.ofLength (before ++ item :: behind).length ≤ word) :=
    fun beyond => (Index.beyond_iff fits exact).mp beyond inside
  have here : (before ++ item :: behind)[before.length]? = some item := by simp
  have erased : (before ++ item :: behind).eraseIdx before.length = before ++ behind := by
    simp [List.eraseIdx_append_of_length_le]
  rw [Index.shift] at moved
  simp only [deleteItem, heap_bind, read, ofExcept, pure_bind, Heap.listItems, stored, moved,
    resume, if_neg allowed, Index.toPlace_eq exact meant, here, erased]
  rfl

end At

section Beyond

variable (stored : machine.heap.get? cell = some (.list items)) (fits : items.length < 2 ^ 63)
  (read : ∀ (heap : Heap) (container : Value),
    heap.index container index = .ok (.position position))
  (beyond : ¬ Index.Inside items.length position.toInt)

include stored fits read beyond

theorem getItem_misses : Misses (getItem (.list cell) index) machine := by
  refine ⟨.indexOutOfRange, ?_, rfl⟩
  simp only [getItem, heap_bind, read, ofExcept, pure_bind, Heap.listItems, stored, pick,
    Index.resolve_of_not_inside fits beyond, resume]
  rfl

theorem setItem_misses (value : Value) : Misses (setItem (.list cell) index value) machine := by
  refine ⟨.assignmentOutOfRange, ?_, rfl⟩
  simp only [setItem, heap_bind, read, ofExcept, pure_bind, Heap.listItems, stored,
    Index.resolve_of_not_inside fits beyond, resume]
  rfl

theorem deleteItem_misses : Misses (deleteItem (.list cell) index) machine := by
  refine ⟨.assignmentOutOfRange, ?_, rfl⟩
  obtain ⟨word, moved, exact⟩ := Index.exists_shift fits position
  rw [Index.shift] at moved
  simp only [deleteItem, heap_bind, read, ofExcept, pure_bind, Heap.listItems, stored, moved,
    resume, if_pos ((Index.beyond_iff fits exact).mpr beyond)]
  rfl

end Beyond

/-- Reading, assigning and deleting at a position find the same place of a list, or all fail with
an index error: what is before and behind the place stays. -/
theorem list_changes_agree_on_places {number : Int}
    (stored : machine.heap.get? cell = some (.list items)) (fits : items.length < 2 ^ 63)
    (counts : index.number? = some number) (value : Value) :
    (Index.Inside items.length number →
      ∃ before item behind, items = before ++ item :: behind ∧
        (before.length : Int) = Index.shifted items.length number ∧
        getItem (.list cell) index machine = .ok item machine ∧
        (∃ later, setItem (.list cell) index value machine = .ok () later ∧
          machine.Relists cell (before ++ value :: behind) later ∧
          getItem (.list cell) index later = .ok value later) ∧
        ∃ later, deleteItem (.list cell) index machine = .ok item later ∧
          machine.Relists cell (before ++ behind) later) ∧
      (¬ Index.Inside items.length number →
        Misses (getItem (.list cell) index) machine ∧
          Misses (setItem (.list cell) index value) machine ∧
          Misses (deleteItem (.list cell) index) machine) := by
  obtain ⟨position, rfl, read⟩ := Heap.exists_index_eq counts
  constructor
  · intro inside
    obtain ⟨before, item, behind, rfl, meant⟩ := Index.exists_split inside
    have assigned := Machine.relists_set stored (before ++ value :: behind)
    have same : (before ++ value :: behind).length = (before ++ item :: behind).length := by simp
    refine ⟨before, item, behind, rfl, meant, getItem_at stored fits read inside meant,
      ⟨_, setItem_at stored fits read inside meant value, assigned, ?_⟩,
      ⟨_, deleteItem_at stored fits read inside meant, Machine.relists_set stored _⟩⟩
    rw [← same] at fits inside meant
    exact getItem_at assigned.list fits read inside meant
  · intro beyond
    exact ⟨getItem_misses stored fits read beyond, setItem_misses stored fits read beyond value,
      deleteItem_misses stored fits read beyond⟩

/-- A truth value is a position of three items; the least word is none. -/
theorem second_of_three_is_deleted :
    let machine : Machine := { heap := ⟨#[some (.list [.int 10, .int 20, .int 30])]⟩ }
    let least : Value := .int (-9223372036854775808)
    (machine.heap.get? 0 = some (.list [.int 10, .int 20, .int 30]) ∧ 3 < 2 ^ 63 ∧
      (Value.bool true).number? = some 1 ∧ least.number? = some (-9223372036854775808)) ∧
    (∃ later, deleteItem (.list 0) (.bool true) machine = .ok (.int 20) later ∧
      machine.Relists 0 [.int 10, .int 30] later) ∧
    Misses (deleteItem (.list 0) least) machine := by
  intro machine least
  have stored : machine.heap.get? 0 = some (.list [.int 10, .int 20, .int 30]) := rfl
  have fits : [Value.int 10, .int 20, .int 30].length < 2 ^ 63 := by decide
  have second : (Value.bool true).number? = some 1 := rfl
  have lowest : least.number? = some (-9223372036854775808) := by decide
  refine ⟨⟨stored, by decide, second, lowest⟩, ?_, ?_⟩
  · obtain ⟨before, item, behind, split, meant, -, -, later, deleted, relisted⟩ :=
      (list_changes_agree_on_places stored fits second .nothing).1 (by decide)
    have length : before.length = 1 := by
      have shifted : Index.shifted [Value.int 10, .int 20, .int 30].length 1 = 1 := by decide
      omega
    obtain ⟨first, rfl⟩ := List.length_eq_one_iff.mp length
    cases split
    exact ⟨later, deleted, relisted⟩
  · exact ((list_changes_agree_on_places stored fits lowest .nothing).2 (by decide)).2.2

end Positions

section Ranges

variable {machine : Machine} {cell : CellId} {items : List Value} {slice : Slice}
  {index plain : Value}

theorem deleteItem_of_remove {rest : List Value}
    (stored : machine.heap.get? cell = some (.list items))
    (written : machine.heap.Writes slice index) (removed : slice.remove items = .ok rest) :
    deleteItem (.list cell) index machine =
      .ok .nothing { machine with heap := machine.heap.set cell (.list rest) } := by
  simp only [deleteItem, heap_bind, written.index_eq, ofExcept, pure_bind, Heap.listItems, stored,
    removed, resume]
  rfl

/-- Deleting a slice takes out of a list exactly what reading it without its step selects, also
after it was read, whatever the step is. -/
theorem slice_deletion_takes_out_what_is_read
    (stored : machine.heap.get? cell = some (.list items)) (fits : items.length < 2 ^ 63)
    (written : machine.heap.Writes slice index)
    (unstepped : machine.heap.Writes slice.unstepped plain) :
    ∃ before selected behind, items = before ++ selected ++ behind ∧
      (before.length : Int) =
        min (max (Index.shifted items.length (slice.start.getD 0).toInt) 0) items.length ∧
      (selected = [] → before ++ behind = items) ∧
      (∃ later, deleteItem (.list cell) index machine = .ok .nothing later ∧
        machine.Relists cell (before ++ behind) later) ∧
      ∃ copy read, getItem (.list cell) plain machine = .ok (.list copy) read ∧
        read.heap.get? copy = some (.list selected) ∧
        ∃ later, deleteItem (.list cell) index read = .ok .nothing later ∧
          read.Relists cell (before ++ behind) later := by
  obtain ⟨before, selected, behind, apart, begins, chosen, removed⟩ :=
    Slice.exists_split slice fits
  have still : (machine.heap.alloc (.list selected)).2.get? cell = some (.list items) :=
    Heap.get?_alloc_of_get? stored _
  refine ⟨before, selected, behind, apart, ?_, ?_,
    ⟨_, deleteItem_of_remove stored written removed, Machine.relists_set stored _⟩,
    ⟨_, _, getItem_of_select stored unstepped chosen, Heap.get?_alloc_size _ _,
      _, deleteItem_of_remove still (written.alloc _) removed, Machine.relists_set still _⟩⟩
  · rw [begins, Slice.first_unstepped]
    omega
  · rintro rfl
    rw [apart, List.append_nil]

/-- With the step zero, which cannot be read, the deletion is that without a step. -/
theorem deletion_ignores_the_step_zero :
    let slice : Slice := ⟨some (-2), none, some 0⟩
    let machine : Machine := { heap := ⟨#[some (.list [.int 10, .int 20, .int 30]),
      some (.tuple [.int (-2), .nothing, .int 0]),
      some (.tuple [.int (-2), .nothing, .nothing])]⟩ }
    (machine.heap.get? 0 = some (.list [.int 10, .int 20, .int 30]) ∧ 3 < 2 ^ 63 ∧
      machine.heap.Writes slice (.tuple 1) ∧ machine.heap.Writes slice.unstepped (.tuple 2)) ∧
    ∃ selected behind later, [.int 20, .int 30] = selected ++ behind ∧
      deleteItem (.list 0) (.tuple 1) machine = .ok .nothing later ∧
      machine.Relists 0 (.int 10 :: behind) later := by
  intro slice machine
  have stored : machine.heap.get? 0 = some (.list [.int 10, .int 20, .int 30]) := rfl
  have written : machine.heap.Writes slice (.tuple 1) := .tuple rfl
  have unstepped : machine.heap.Writes slice.unstepped (.tuple 2) := .tuple rfl
  refine ⟨⟨stored, by decide, written, unstepped⟩, ?_⟩
  obtain ⟨before, selected, behind, apart, measured, -, ⟨later, deleted, relisted⟩, -⟩ :=
    slice_deletion_takes_out_what_is_read stored (by decide) written unstepped
  have length : before.length = 1 := by
    have first : min (max (Index.shifted [Value.int 10, .int 20, .int 30].length
      (slice.start.getD 0).toInt) 0) ([Value.int 10, .int 20, .int 30].length : Int) = 1 := by
      decide
    omega
  obtain ⟨first, rfl⟩ := List.length_eq_one_iff.mp length
  obtain ⟨rfl, others⟩ := List.cons.inj apart
  exact ⟨selected, behind, later, others, deleted, relisted⟩

end Ranges

end Act

end ScriptCore
