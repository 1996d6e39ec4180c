import ScriptCore.Item.Access

/-!
# Changing items

All that can come of assigning or deleting an item, whatever the container and the index are.
-/

namespace ScriptCore

/-- What goes on with a result had that result to go on with. -/
theorem exists_of_bind_eq_ok {ε α β : Type} {first : Except ε α} {next : α → Except ε β}
    {result : β} (ran : first >>= next = .ok result) :
    ∃ value, first = .ok value ∧ next value = .ok result := by
  cases first with
  | error error => cases ran
  | ok value => exact ⟨value, rfl, ran⟩

namespace Slice

variable {α : Type} {slice : Slice} {items rest : List α}

theorem sublist_of_drain {start stop : Nat} (drained : drain start stop items = .ok rest) :
    rest.Sublist items := by
  unfold drain at drained
  split at drained
  · rename_i range
    cases drained
    have behind := List.drop_sublist_drop_left items range.1
    have joined := (List.Sublist.refl (items.take start)).append behind
    rwa [List.take_append_drop] at joined
  · cases drained

/-- Removing a slice adds nothing and keeps the order. -/
theorem sublist_of_remove (removed : slice.remove items = .ok rest) : rest.Sublist items := by
  obtain ⟨start, -, ran⟩ := exists_of_bind_eq_ok removed
  obtain ⟨stop, -, ran⟩ := exists_of_bind_eq_ok ran
  split at ran
  · cases ran
    exact List.Sublist.refl _
  · obtain ⟨first, -, ran⟩ := exists_of_bind_eq_ok ran
    obtain ⟨last, -, drained⟩ := exists_of_bind_eq_ok ran
    exact sublist_of_drain drained

end Slice

namespace Act

section Items

variable (machine : Machine) (container index : Value)

/-- What comes of assigning an item: a stop that changes nothing, an entry of a dict, or an item
at a place of a list. -/
inductive Assigns (value : Value) : EStateM.Result Stop Machine Unit → Prop
  | refused (stop : Stop) : Assigns value (.error stop machine)
  | entry (cell : CellId) (key : Key) (isDict : container = .dict cell)
      (keyed : Key.ofValue index = .ok key) :
      Assigns value (.ok ()
        { machine with
          heap := machine.heap.set cell (.dict ((machine.heap.dictEntries cell).insert key value)) })
  | item (cell : CellId) (place : Nat) (isList : container = .list cell) :
      Assigns value (.ok ()
        { machine with
          heap := machine.heap.set cell (.list ((machine.heap.listItems cell).set place value)) })

/-- What comes of deleting an item: a stop that changes nothing, an entry taken from a dict, or an
item or a range taken from a list. -/
inductive Deletes : EStateM.Result Stop Machine Value → Prop
  | refused (stop : Stop) : Deletes (.error stop machine)
  | entry (cell : CellId) (key : Key) (value : Value) (isDict : container = .dict cell)
      (keyed : Key.ofValue index = .ok key)
      (found : (machine.heap.dictEntries cell).find? key = some value) :
      Deletes (.ok value
        { machine with
          heap := machine.heap.set cell (.dict ((machine.heap.dictEntries cell).erase key)) })
  | item (cell : CellId) (place : Nat) (item : Value) (isList : container = .list cell)
      (found : (machine.heap.listItems cell)[place]? = some item) :
      Deletes (.ok item
        { machine with
          heap := machine.heap.set cell (.list ((machine.heap.listItems cell).eraseIdx place)) })
  | range (cell : CellId) (slice : Slice) (rest : List Value) (isList : container = .list cell)
      (removed : slice.remove (machine.heap.listItems cell) = .ok rest) :
      Deletes (.ok .nothing { machine with heap := machine.heap.set cell (.list rest) })

theorem assigns_setItem (value : Value) :
    Assigns machine container index value (setItem container index value machine) := by
  cases container with
  | dict cell =>
      simp only [setItem, heap_bind]
      cases keyed : Key.ofValue index with
      | error error => exact .refused _
      | ok key => exact .entry cell key rfl keyed
  | list cell =>
      simp only [setItem, heap_bind]
      cases machine.heap.index (.list cell) index with
      | error error => exact .refused _
      | ok position =>
          cases position with
          | slice slice => exact .refused _
          | position position =>
              simp only [ofExcept, pure_bind]
              cases Index.resolve .assignmentOutOfRange (machine.heap.listItems cell).length
                  position with
              | error stop => exact .refused stop
              | ok place =>
                  simp only [resume, pure_bind]
                  split
                  · exact .item cell place rfl
                  · exact .refused _
  | _ => exact .refused _

theorem deletes_deleteItem :
    Deletes machine container index (deleteItem container index machine) := by
  cases container with
  | dict cell =>
      simp only [deleteItem, heap_bind]
      cases keyed : Key.ofValue index with
      | error error => exact .refused _
      | ok key =>
          simp only [ofExcept, pure_bind]
          cases found : (machine.heap.dictEntries cell).find? key with
          | none => exact .refused _
          | some value => exact .entry cell key value rfl keyed found
  | list cell =>
      simp only [deleteItem, heap_bind]
      cases machine.heap.index (.list cell) index with
      | error error => exact .refused _
      | ok position =>
          cases position with
          | slice slice =>
              simp only [ofExcept, pure_bind]
              cases removed : slice.remove (machine.heap.listItems cell) with
              | error stop => exact .refused stop
              | ok rest => exact .range cell slice rest rfl removed
          | position position =>
              simp only [ofExcept, pure_bind]
              generalize (if position < 0 then Word.add position
                (Word.ofLength (machine.heap.listItems cell).length) else .ok position) = shifted
              cases shifted with
              | error stop => exact .refused stop
              | ok place =>
                  simp only [resume, pure_bind]
                  split
                  · exact .refused _
                  · cases found : (machine.heap.listItems cell)[Word.toPlace place]? with
                    | none => exact .refused _
                    | some item => exact .item cell _ item rfl found
  | _ => exact .refused _

end Items

end Act

end ScriptCore
