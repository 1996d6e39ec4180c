import ScriptCore.Item.Slice
import ScriptCore.Machine.Basic
import ScriptCore.Repr

/-!
# Item access

Reading, assigning and deleting the items of sequences and dicts.  A slice of a sequence
is a new sequence of the same kind.  Deleting a slice removes the whole range between its
bounds.
-/

namespace ScriptCore.Act

/-- The item at a position, or the items of a slice given to `build`. -/
def pick (items : List α) (missing : Stop) (single : α → Act Value)
    (build : List α → Act Value) : Index → Act Value
  | .position position => do
      let place ← resume (Index.resolve .indexOutOfRange items.length position)
      match items[place]? with
      | some item => single item
      | none => throw missing
  | .slice slice => do build (← resume (slice.select items))

/-- Read an item.  A dict gives nothing for a key it does not hold. -/
def getItem (container index : Value) : Act Value := do
  let heap ← heap
  match container with
  | .dict cell =>
      let key ← ofExcept (Key.ofValue index)
      return ((heap.dictEntries cell).find? key).getD .nothing
  | .string value =>
      let index ← ofExcept (heap.index container index)
      pick value.text.toList (.error .indexOutOfRange)
        (fun char => newString (String.singleton char))
        (fun chars => newString (String.ofList chars)) index
  | .tuple cell =>
      let index ← ofExcept (heap.index container index)
      pick (heap.tupleItems cell) (.fault .outside) pure newTuple index
  | .list cell =>
      let index ← ofExcept (heap.index container index)
      pick (heap.listItems cell) (.fault .outside) pure newList index
  | _ => fail (.notSubscriptable (heap.typeName container))

/-- Assign an item. -/
def setItem (container index value : Value) : Act Unit := do
  let heap ← heap
  match container with
  | .dict cell =>
      let key ← ofExcept (Key.ofValue index)
      store cell (.dict ((heap.dictEntries cell).insert key value))
  | .list cell =>
      let items := heap.listItems cell
      match ← ofExcept (heap.index container index) with
      | .position position =>
          let place ← resume (Index.resolve .assignmentOutOfRange items.length position)
          if place < items.length then store cell (.list (items.set place value))
          else throw (.fault .outside)
      | .slice _ => fail .sliceAssignment
  | _ => fail (.noItemAssignment (heap.typeName container))

/-- Delete an item and give the value it had; deleting a slice gives nothing. -/
def deleteItem (container index : Value) : Act Value := do
  let heap ← heap
  match container with
  | .list cell =>
      let items := heap.listItems cell
      match ← ofExcept (heap.index container index) with
      | .position position =>
          let length := Word.ofLength items.length
          let place ← resume (if position < 0 then Word.add position length else .ok position)
          if place < 0 ∨ length ≤ place then fail .assignmentOutOfRange
          else
            match items[Word.toPlace place]? with
            | some item =>
                store cell (.list (items.eraseIdx (Word.toPlace place)))
                return item
            | none => throw (.fault .outside)
      | .slice slice =>
          store cell (.list (← resume (slice.remove items)))
          return .nothing
  | .dict cell =>
      let key ← ofExcept (Key.ofValue index)
      let entries := heap.dictEntries cell
      match entries.find? key with
      | some value =>
          store cell (.dict (entries.erase key))
          return value
      | none => fail (.missingKey (heap.repr .plain index))
  | _ => fail .noItemDeletion

end ScriptCore.Act
