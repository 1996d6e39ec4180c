import ScriptCore.Item.Access
import ScriptCore.Proofs.Words

/-!
# Slices of sequences

A slice selects an arithmetic progression: the first place and then each a step further, as long
as they are before the end in the direction of the step.  The arithmetic is done on words; here it
is compared with that of the integers, in which nothing overflows.
-/

namespace ScriptCore

namespace Index

/-- A position moved forward by the length once if it is negative. -/
def shifted (length : Nat) (position : Int) : Int :=
  if position < 0 then position + length else position

theorem exists_shift {length : Nat} (fits : length < 2 ^ 63) (position : Int64) :
    ∃ place, shift (Word.ofLength length) position = .ok place ∧
      place.toInt = shifted length position.toInt := by
  have size := Word.toInt_ofLength fits
  have low := Int64.le_toInt position
  have high := Int64.toInt_lt position
  simp only [shift, shifted, Int64.lt_iff_toInt_lt, Int64.toInt_zero]
  split
  · obtain ⟨place, added, exact⟩ : ∃ place, Word.add position (Word.ofLength length) = .ok place ∧
        place.toInt = position.toInt + (Word.ofLength length).toInt :=
      Word.exists_add (by omega) (by omega)
    exact ⟨place, added, by rw [exact, size]⟩
  · exact ⟨position, rfl, rfl⟩

end Index

namespace Slice

/-- A bound moved forward by the length once if it is negative, and brought between two limits;
the default if it is absent. -/
def bounded (length : Nat) (default low high : Int) : Option Int64 → Int
  | none => default
  | some position => max low (min high (Index.shifted length position.toInt))

theorem exists_bound {length : Nat} (fits : length < 2 ^ 63) {low high : Int64}
    (ordered : low.toInt ≤ high.toInt) (default : Int64) (given : Option Int64) :
    ∃ place, bound (Word.ofLength length) default low high given = .ok place ∧
      place.toInt = bounded length default.toInt low.toInt high.toInt given := by
  cases given with
  | none => exact ⟨default, rfl, rfl⟩
  | some position =>
      obtain ⟨shifted, moved, exact⟩ := Index.exists_shift fits position
      obtain ⟨place, clamped, between⟩ := Word.exists_clamp ordered shifted
      refine ⟨place, ?_, ?_⟩
      · rw [bound, moved]
        exact clamped
      · rw [between, exact, bounded]

/-- Whether a position is before the end in the direction of the step. -/
def Before (step position stop : Int) : Prop :=
  (0 < step ∧ position < stop) ∨ (step < 0 ∧ stop < position)

section Progression

variable {step stop position : Int}

/-- What comes before a position that is before the end is before the end too. -/
theorem Before.earlier {count : Nat} (before : Before step (position + count * step) stop) :
    Before step position stop := by
  rcases before with ⟨rising, below⟩ | ⟨falling, above⟩
  · have advance : 0 ≤ (count : Int) * step := Int.mul_nonneg (by omega) (by omega)
    exact .inl ⟨rising, by omega⟩
  · have advance : 0 ≤ (count : Int) * -step := Int.mul_nonneg (by omega) (by omega)
    rw [Int.mul_neg] at advance
    exact .inr ⟨falling, by omega⟩

theorem add_succ_mul (position step : Int) (count : Nat) :
    position + ((count + 1 : Nat) : Int) * step = position + step + count * step := by
  push_cast
  rw [Int.add_mul]
  omega

end Progression

/-- A sum that is no word is beyond every end. -/
theorem not_before_of_add?_eq_none {step stop position : Int64}
    (missing : Word.add? position step = none) (count : Nat) :
    ¬ Before step.toInt (position.toInt + ((count + 1 : Nat) : Int) * step.toInt) stop.toInt := by
  rw [add_succ_mul]
  intro before
  have reached := before.earlier
  have outside := Word.add?_eq_none_iff.mp missing
  have low := Int64.le_toInt stop
  have high := Int64.toInt_lt stop
  have lowest := Int64.le_toInt position
  have highest := Int64.toInt_lt position
  rcases reached with ⟨rising, below⟩ | ⟨falling, above⟩ <;> omega

/-- The test of a walk, said of the integers. -/
theorem before_iff {step stop position : Int64} :
    (0 < step ∧ position < stop) ∨ (step < 0 ∧ stop < position) ↔
      Before step.toInt position.toInt stop.toInt := by
  simp only [Before, Int64.lt_iff_toInt_lt, Int64.toInt_zero]

theorem walk_of_before {step stop position : Int64}
    (before : Before step.toInt position.toInt stop.toInt) :
    walk step stop position =
      Word.toPlace position :: (Word.add? position step).elim [] (walk step stop) := by
  rw [walk, dif_pos (before_iff.mpr before)]
  split
  · rename_i next further
    simp only [further, Option.elim_some]
  · rename_i further
    simp only [further, Option.elim_none]

theorem walk_of_not_before {step stop position : Int64}
    (beyond : ¬ Before step.toInt position.toInt stop.toInt) : walk step stop position = [] := by
  rw [walk, dif_neg fun before => beyond (before_iff.mp before)]

/-- A walk gives the progression, as far as it is before the end. -/
theorem walk_getElem? {step stop position : Int64}
    (inside : ∀ count : Nat, Before step.toInt (position.toInt + count * step.toInt) stop.toInt →
      0 ≤ position.toInt + count * step.toInt) (count place : Nat) :
    (walk step stop position)[count]? = some place ↔
      Before step.toInt (position.toInt + count * step.toInt) stop.toInt ∧
        (place : Int) = position.toInt + count * step.toInt := by
  -- Along the walk: what comes after the first place is the progression from one step further on.
  induction position using walk.induct step stop generalizing count with
  | case2 position beyond =>
      rw [before_iff] at beyond
      rw [walk_of_not_before beyond]
      constructor
      · intro found
        cases found
      · intro reached
        exact absurd reached.1.earlier beyond
  | case1 position before ih =>
      rw [before_iff] at before
      rw [walk_of_before before]
      cases count with
      | zero =>
          have here := Word.toPlace_eq (by simpa using inside 0 (by simpa using before))
          simp only [List.getElem?_cons_zero, Option.some.injEq, Int.natCast_zero, Int.zero_mul,
            Int.add_zero, before, true_and]
          omega
      | succ count =>
          rw [List.getElem?_cons_succ]
          cases further : Word.add? position step with
          | none =>
              constructor
              · intro found
                cases found
              · intro reached
                exact absurd reached.1 (not_before_of_add?_eq_none further count)
          | some next =>
              have exact := Word.add?_eq_some_iff.mp further
              have onward : ∀ count : Nat, next.toInt + count * step.toInt =
                  position.toInt + ((count + 1 : Nat) : Int) * step.toInt := by
                intro count
                rw [add_succ_mul, exact]
              have further := ih next further (fun count before => ?_) count
              · rw [onward] at further
                exact further
              · rw [onward] at before ⊢
                exact inside (count + 1) before

section Selection

variable (slice : Slice) (length : Nat)

/-- The step of a slice, 1 if it has none. -/
def stride : Int :=
  (slice.step.getD 1).toInt

/-- Where a slice begins: at the near end of the sequence if it does not say. -/
def first : Int :=
  if 0 < slice.stride then bounded length 0 0 length slice.start
  else bounded length (length - 1) (-1) (length - 1) slice.start

/-- What a slice ends before: the far end of the sequence if it does not say. -/
def finish : Int :=
  if 0 < slice.stride then bounded length length 0 length slice.stop
  else bounded length (-1) (-1) (length - 1) slice.stop

/-- The places a slice means: the first, and then each a step further, as long as they are before
the end in the direction of the step; all of them are inside the sequence. -/
structure Selects (places : List Nat) : Prop where
  progression : ∀ count place : Nat, places[count]? = some place ↔
    Before slice.stride (slice.first length + count * slice.stride) (slice.finish length) ∧
      (place : Int) = slice.first length + count * slice.stride
  inside : ∀ place ∈ places, place < length

variable {slice length}

theorem le_bounded {low high default : Int} (above : low ≤ default) (given : Option Int64) :
    low ≤ bounded length default low high given := by
  cases given with
  | none => exact above
  | some position => simp only [bounded]; omega

theorem bounded_le {low high default : Int} (ordered : low ≤ high) (below : default ≤ high)
    (given : Option Int64) : bounded length default low high given ≤ high := by
  cases given with
  | none => exact below
  | some position => simp only [bounded]; omega

/-- Every place of the progression is inside the sequence. -/
theorem inside_of_before {count : Nat}
    (before : Before slice.stride (slice.first length + count * slice.stride)
      (slice.finish length)) :
    0 ≤ slice.first length + count * slice.stride ∧
      slice.first length + count * slice.stride < length := by
  rcases before with ⟨rising, below⟩ | ⟨falling, above⟩
  · have start : 0 ≤ slice.first length := by
      rw [first, if_pos rising]
      exact le_bounded (by omega) _
    have stop : slice.finish length ≤ length := by
      rw [finish, if_pos rising]
      exact bounded_le (by omega) (by omega) _
    have advance : 0 ≤ (count : Int) * slice.stride := Int.mul_nonneg (by omega) (by omega)
    omega
  · have start : slice.first length ≤ length - 1 := by
      rw [first, if_neg (by omega)]
      exact bounded_le (by omega) (by omega) _
    have stop : -1 ≤ slice.finish length := by
      rw [finish, if_neg (by omega)]
      exact le_bounded (by omega) _
    have advance : 0 ≤ (count : Int) * -slice.stride := Int.mul_nonneg (by omega) (by omega)
    rw [Int.mul_neg] at advance
    omega

theorem selects_walk {start stop : Int64} (begins : start.toInt = slice.first length)
    (ends : stop.toInt = slice.finish length) :
    slice.Selects length (walk (slice.step.getD 1) stop start) := by
  have progression : ∀ count place : Nat,
      (walk (slice.step.getD 1) stop start)[count]? = some place ↔
        Before slice.stride (slice.first length + count * slice.stride) (slice.finish length) ∧
          (place : Int) = slice.first length + count * slice.stride := by
    intro count place
    rw [walk_getElem?, begins, ends, stride]
    intro count before
    rw [begins, ends] at *
    exact (inside_of_before before).1
  refine ⟨progression, fun place member => ?_⟩
  obtain ⟨count, found⟩ := List.mem_iff_getElem?.mp member
  obtain ⟨before, exact⟩ := (progression count place).mp found
  have inside := inside_of_before before
  omega

theorem stride_pos_iff : 0 < slice.stride ↔ 0 < slice.step.getD 1 := by
  rw [stride, Int64.lt_iff_toInt_lt, Int64.toInt_zero]

theorem exists_positions_of_rising (fits : length < 2 ^ 63) (rising : 0 < slice.step.getD 1) :
    ∃ places, slice.positions length = .ok places ∧ slice.Selects length places := by
  have size := Word.toInt_ofLength fits
  have upward := stride_pos_iff.mpr rising
  have nonzero : slice.step.getD 1 ≠ 0 := fun still => absurd (still ▸ rising) (by decide)
  have ordered : (0 : Int64).toInt ≤ (Word.ofLength length).toInt := by
    rw [Int64.toInt_zero, size]
    omega
  obtain ⟨start, started, begins⟩ := exists_bound fits ordered 0 slice.start
  obtain ⟨stop, stopped, ends⟩ := exists_bound fits ordered (Word.ofLength length) slice.stop
  refine ⟨walk (slice.step.getD 1) stop start, ?_, selects_walk ?_ ?_⟩
  · unfold positions
    simp only [nonzero, if_false]
    rw [if_pos rising, started, stopped]
    rfl
  · rw [begins, first, if_pos upward, Int64.toInt_zero, size]
  · rw [ends, finish, if_pos upward, Int64.toInt_zero, size]

theorem exists_positions_of_falling (fits : length < 2 ^ 63) (nonzero : slice.step.getD 1 ≠ 0)
    (falling : ¬ 0 < slice.step.getD 1) :
    ∃ places, slice.positions length = .ok places ∧ slice.Selects length places := by
  have size := Word.toInt_ofLength fits
  have downward : ¬ 0 < slice.stride := fun upward => falling (stride_pos_iff.mp upward)
  have minus : (-1 : Int64).toInt = -1 := by decide
  -- The last place of an empty sequence is -1, where a falling slice ends as well.
  obtain ⟨last, counted, ended⟩ : ∃ last, Word.add (Word.ofLength length) (-1) = .ok last ∧
      last.toInt = (Word.ofLength length).toInt + (-1 : Int64).toInt :=
    Word.exists_add (by omega) (by omega)
  have final : last.toInt = length - 1 := by
    rw [ended, size, minus]
    omega
  have ordered : (-1 : Int64).toInt ≤ last.toInt := by
    rw [minus, final]
    omega
  obtain ⟨start, started, begins⟩ := exists_bound fits ordered last slice.start
  obtain ⟨stop, stopped, ends⟩ := exists_bound fits ordered (-1) slice.stop
  refine ⟨walk (slice.step.getD 1) stop start, ?_, selects_walk ?_ ?_⟩
  · unfold positions
    simp only [nonzero, if_false]
    rw [if_neg falling, counted]
    simp only [bind, Except.bind, started, stopped]
    rfl
  · rw [begins, first, if_neg downward, minus, final]
  · rw [ends, finish, if_neg downward, minus, final]

/-- Unless the step is zero, all the arithmetic of a slice is possible, and the places are those
of the progression. -/
theorem exists_positions (fits : length < 2 ^ 63) (moves : slice.step ≠ some 0) :
    ∃ places, slice.positions length = .ok places ∧ slice.Selects length places := by
  have nonzero : slice.step.getD 1 ≠ 0 := by
    cases given : slice.step with
    | none => decide
    | some step =>
        intro zero
        rw [given] at moves
        exact moves (congrArg some zero)
  by_cases rising : 0 < slice.step.getD 1
  · exact exists_positions_of_rising fits rising
  · exact exists_positions_of_falling fits nonzero rising

/-- The step zero leads nowhere. -/
theorem positions_of_still (still : slice.step = some 0) :
    slice.positions length = .error (.error .zeroStep) := by
  unfold positions
  rw [still]
  rfl

end Selection

section Items

variable {α : Type} {slice : Slice} {items : List α} {places : List Nat}

/-- The items at given places, in the order of the places. -/
def Picked (items : List α) (places : List Nat) (chosen : List α) : Prop :=
  chosen.map some = places.map (items[·]?)

theorem Picked.getElem?_eq {chosen : List α} (picked : Picked items places chosen) (count : Nat) :
    chosen[count]? = places[count]?.bind (items[·]?) := by
  have there : (chosen.map some)[count]? = (places.map (items[·]?))[count]? := by rw [picked]
  rw [List.getElem?_map, List.getElem?_map] at there
  generalize places[count]? = place at there ⊢
  cases place with
  | none => exact Option.map_eq_none_iff.mp there
  | some place =>
      obtain ⟨item, taken, same⟩ := Option.map_eq_some_iff.mp there
      exact taken.trans same

theorem Picked.map {β : Type} {chosen : List α} (picked : Picked items places chosen)
    (wrap : α → β) : Picked (items.map wrap) places (chosen.map wrap) := by
  have wrapped := congrArg (List.map (Option.map wrap)) picked
  simpa [Picked, Function.comp_def] using wrapped

/-- Items are there at all places inside the sequence. -/
theorem exists_picked (inside : ∀ place ∈ places, place < items.length) :
    ∃ chosen, places.mapM (fun place => Fault.outside.unless items.toArray[place]?) = .ok chosen ∧
      Picked items places chosen := by
  induction places with
  | nil => exact ⟨[], rfl, rfl⟩
  | cons place rest ih =>
      obtain ⟨here, others⟩ := List.forall_mem_cons.mp inside
      obtain ⟨chosen, gathered, picked⟩ := ih others
      have found : items[place]? = some items[place] := List.getElem?_eq_getElem here
      refine ⟨items[place] :: chosen, ?_, ?_⟩
      · rw [List.mapM_cons, List.getElem?_toArray, found, gathered]
        rfl
      · simp only [Picked, List.map_cons, found] at picked ⊢
        rw [picked]

theorem exists_select (found : slice.positions items.length = .ok places)
    (selects : slice.Selects items.length places) :
    ∃ chosen, slice.select items = .ok chosen ∧ Picked items places chosen := by
  obtain ⟨chosen, gathered, picked⟩ := exists_picked selects.inside
  refine ⟨chosen, ?_, picked⟩
  rw [select, List.size_toArray, found]
  exact gathered

theorem select_of_still (still : slice.step = some 0) :
    slice.select items = .error (.error .zeroStep) := by
  rw [select, positions_of_still still]
  rfl

end Items

end Slice

/-- A member of a slice as a value. -/
def Value.ofBound : Option Int64 → Value
  | none => .nothing
  | some word => .int word

/-- What a sequence is made of. -/
inductive Element
  | char (char : Char)
  | item (value : Value)

namespace Heap

/-- The elements of a string, a tuple or a list. -/
inductive Sequence (heap : Heap) : Value → List Element → Prop
  | string (string : Str) : Sequence heap (.string string) (string.text.toList.map .char)
  | tuple {cell : CellId} {items : List Value} (found : heap.get? cell = some (.tuple items)) :
      Sequence heap (.tuple cell) (items.map .item)
  | list {cell : CellId} {items : List Value} (found : heap.get? cell = some (.list items)) :
      Sequence heap (.list cell) (items.map .item)

/-- A slice written as a tuple. -/
inductive Writes (heap : Heap) (slice : Slice) : Value → Prop
  | tuple {cell : CellId} (found : heap.get? cell =
      some (.tuple [.ofBound slice.start, .ofBound slice.stop, .ofBound slice.step])) :
      Writes heap slice (.tuple cell)

theorem Writes.index_eq {heap : Heap} {slice : Slice} {index : Value}
    (written : heap.Writes slice index) (container : Value) :
    heap.index container index = .ok (.slice slice) := by
  obtain ⟨found⟩ := written
  have read : ∀ bound, Slice.ofBound (.ofBound bound) = .ok bound := by
    intro bound
    cases bound <;> rfl
  simp only [Heap.index, tupleItems, found, Slice.ofValues, read]
  rfl

theorem get?_alloc_size (heap : Heap) (cell : Cell) :
    (heap.alloc cell).2.get? heap.size = some cell := by
  rw [get?_alloc, if_pos rfl]

theorem contains_size (heap : Heap) : heap.contains heap.size = false := by
  rw [contains, get?_size]
  rfl

/-- A new cell is none of those that exist. -/
theorem get?_alloc_of_contains {heap : Heap} {id : CellId} (cell : Cell)
    (present : heap.contains id = true) : (heap.alloc cell).2.get? id = heap.get? id := by
  rw [get?_alloc]
  split
  · rename_i fresh
    rw [fresh, contains_size] at present
    cases present
  · rfl

end Heap

namespace Act

section Reading

variable {α : Type} {items chosen : List α} {missing : Stop} {single : α → Act Value}
  {build : List α → Act Value} {slice : Slice}

theorem pick_of_select (selected : slice.select items = .ok chosen) :
    pick items missing single build (.slice slice) = build chosen := by
  rw [pick, selected]
  rfl

theorem pick_of_still (still : slice.step = some 0) :
    pick items missing single build (.slice slice) = fail .zeroStep := by
  rw [pick, Slice.select_of_still still]
  rfl

variable {machine : Machine} {container index : Value} {elements : List Element}
  {places : List Nat}

/-- Reading gives a new value of the same kind with the elements at the given places, and leaves
everything there is as it was. -/
def ReadsPlaces (machine : Machine) (container index : Value) (elements : List Element)
    (places : List Nat) : Prop :=
  ∃ result after chosen, getItem container index machine = .ok result after ∧
    result.variant = container.variant ∧ after.heap.Sequence result chosen ∧
    Slice.Picked elements places chosen ∧
    (∀ cell ∈ result.cell?, machine.heap.contains cell = false) ∧
    ∀ id, machine.heap.contains id = true → after.heap.get? id = machine.heap.get? id

theorem getItem_of_still (sequence : machine.heap.Sequence container elements)
    (written : machine.heap.Writes slice index) (still : slice.step = some 0) :
    getItem container index machine = .error (.error .zeroStep) machine := by
  cases sequence <;>
  · simp only [getItem, heap_bind, written.index_eq, ofExcept, pure_bind, pick_of_still still]
    rfl

/-- A slice of a list is a new list. -/
theorem getItem_of_select {cell : CellId} {items chosen : List Value}
    (stored : machine.heap.get? cell = some (.list items))
    (written : machine.heap.Writes slice index) (selected : slice.select items = .ok chosen) :
    getItem (.list cell) index machine =
      .ok (.list machine.heap.size)
        { machine with heap := (machine.heap.alloc (.list chosen)).2 } := by
  simp only [getItem, heap_bind, written.index_eq, ofExcept, pure_bind, Heap.listItems, stored,
    pick_of_select selected]
  rfl

theorem readsPlaces_of_made {content : Cell} {result : Value} {chosen : List Element}
    (read : getItem container index machine =
      .ok result { machine with heap := (machine.heap.alloc content).2 })
    (kind : result.variant = container.variant) (named : result.cell? = some machine.heap.size)
    (sequence : (machine.heap.alloc content).2.Sequence result chosen)
    (picked : Slice.Picked elements places chosen) :
    ReadsPlaces machine container index elements places := by
  refine ⟨result, _, chosen, read, kind, sequence, picked, fun cell isNew => ?_,
    fun id => Heap.get?_alloc_of_contains _⟩
  rw [named] at isNew
  cases isNew
  exact machine.heap.contains_size

theorem readsPlaces_of_selects (sequence : machine.heap.Sequence container elements)
    (written : machine.heap.Writes slice index)
    (found : slice.positions elements.length = .ok places)
    (selects : slice.Selects elements.length places) :
    ReadsPlaces machine container index elements places := by
  cases sequence with
  | string string =>
      rw [List.length_map] at found selects
      obtain ⟨chosen, selected, picked⟩ := Slice.exists_select found selects
      let copy : Str := ⟨String.ofList chosen, machine.supply.next⟩
      have copied : copy.text.toList = chosen := String.toList_ofList
      refine ⟨.string copy, { machine with supply := machine.supply.fresh.2 },
        copy.text.toList.map .char, ?_, rfl, .string copy, ?_, nofun, fun _ _ => rfl⟩
      · simp only [getItem, heap_bind, written.index_eq, ofExcept, pure_bind,
          pick_of_select selected]
        rfl
      · rw [copied]
        exact picked.map _
  | @tuple cell items stored =>
      rw [List.length_map] at found selects
      obtain ⟨chosen, selected, picked⟩ := Slice.exists_select found selects
      have read : getItem (.tuple cell) index machine = .ok (.tuple machine.heap.size)
          { machine with heap := (machine.heap.alloc (.tuple chosen)).2 } := by
        simp only [getItem, heap_bind, written.index_eq, ofExcept, pure_bind, Heap.tupleItems,
          stored, pick_of_select selected]
        rfl
      exact readsPlaces_of_made read rfl rfl (.tuple (Heap.get?_alloc_size _ _)) (picked.map _)
  | list stored =>
      rw [List.length_map] at found selects
      obtain ⟨chosen, selected, picked⟩ := Slice.exists_select found selects
      exact readsPlaces_of_made (getItem_of_select stored written selected) rfl rfl
        (.list (Heap.get?_alloc_size _ _)) (picked.map _)

/-- A slice reads from every sequence of a length the same places: those of the progression.  It
fails, with a value error, exactly if its step is zero. -/
theorem slices_read_progressions (slice : Slice) {length : Nat} (fits : length < 2 ^ 63) :
    ∃ places, (slice.step ≠ some 0 → slice.Selects length places) ∧
      ∀ {machine : Machine} {container index : Value} {elements : List Element},
        machine.heap.Sequence container elements → elements.length = length →
        machine.heap.Writes slice index →
          ((∃ error after, getItem container index machine = .error (.error error) after ∧
              error.kind = .valueError) ↔ slice.step = some 0) ∧
            (slice.step ≠ some 0 → ReadsPlaces machine container index elements places) := by
  by_cases still : slice.step = some 0
  · refine ⟨[], fun moves => absurd still moves, fun sequence _ written => ⟨?_, ?_⟩⟩
    · exact iff_of_true ⟨_, _, getItem_of_still sequence written still, rfl⟩ still
    · exact fun moves => absurd still moves
  · obtain ⟨places, found, selects⟩ := Slice.exists_positions fits still
    refine ⟨places, fun _ => selects, fun sequence measured written => ?_⟩
    subst measured
    have reads := readsPlaces_of_selects sequence written found selects
    refine ⟨iff_of_false ?_ still, fun _ => reads⟩
    rintro ⟨error, after, failed, -⟩
    obtain ⟨result, last, chosen, read, -⟩ := reads
    rw [read] at failed
    cases failed

/-- Every second element from the end, whose bound is the least word. -/
theorem text_and_list_are_read_alike :
    let slice : Slice := ⟨none, some (-9223372036854775808), some (-2)⟩
    let machine : Machine := { heap := ⟨#[some (.list [.int 1, .int 2, .int 3]),
      some (.tuple [.nothing, .int (-9223372036854775808), .int (-2)])]⟩ }
    (3 < 2 ^ 63 ∧ slice.step ≠ some 0 ∧ machine.heap.Writes slice (.tuple 1) ∧
      machine.heap.Sequence (.list 0) [.item (.int 1), .item (.int 2), .item (.int 3)]) ∧
    slice.Selects 3 [2, 0] ∧
      ReadsPlaces machine (.list 0) (.tuple 1) [.item (.int 1), .item (.int 2), .item (.int 3)]
        [2, 0] ∧
      ReadsPlaces machine (.string ⟨"xyz", 0⟩) (.tuple 1) [.char 'x', .char 'y', .char 'z']
        [2, 0] := by
  intro slice machine
  have written : machine.heap.Writes slice (.tuple 1) := .tuple rfl
  have list : machine.heap.Sequence (.list 0)
      [.item (.int 1), .item (.int 2), .item (.int 3)] :=
    @Heap.Sequence.list _ 0 [.int 1, .int 2, .int 3] rfl
  have text : machine.heap.Sequence (.string ⟨"xyz", 0⟩) [.char 'x', .char 'y', .char 'z'] :=
    .string ⟨"xyz", 0⟩
  have moves : slice.step ≠ some 0 := by decide
  obtain ⟨places, selects, reads⟩ := slices_read_progressions slice
    (show 3 < 2 ^ 63 by decide)
  have stride : slice.stride = -2 := by decide
  have first : slice.first 3 = 2 := by decide
  have finish : slice.finish 3 = -1 := by decide
  have progression := (selects moves).progression
  simp only [stride, first, finish, Slice.Before] at progression
  obtain rfl : places = [2, 0] := by
    apply List.ext_getElem?
    intro count
    match count with
    | 0 => exact (progression 0 2).mpr (by decide)
    | 1 => exact (progression 1 0).mpr (by decide)
    | count + 2 =>
        refine Option.eq_none_iff_forall_ne_some.mpr fun place found => ?_
        have before := ((progression _ _).mp found).1
        omega
  exact ⟨⟨by decide, moves, written, list⟩, selects moves, (reads list rfl written).2 moves,
    (reads text rfl written).2 moves⟩

end Reading

end Act

end ScriptCore
