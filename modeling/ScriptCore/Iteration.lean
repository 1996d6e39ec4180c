import ScriptCore.Machine.Basic

/-!
# Iteration

Tuples, lists and dicts can be passed over.  A pass over a list reads it by position at
each step, so it sees what happens to the list meanwhile; a pass over a dict gives the
entries that were there at its start, each as a tuple of key and value.
-/

namespace ScriptCore

/-- Something that can be passed over any number of times. -/
inductive Iterable
  | tuple (cell : CellId)
  | list (cell : CellId)
  | dict (cell : CellId)
deriving Repr, DecidableEq

/-- The rest of one pass. -/
inductive Pass
  | tuple (cell : CellId) (position : Nat)
  | list (cell : CellId) (position : Nat)
  | entries (rest : Entries)

namespace Iterable

/-- View a value as something to pass over. -/
def ofValue (heap : Heap) (value : Value) : Except Error Iterable :=
  match value with
  | .tuple cell => .ok (.tuple cell)
  | .list cell => .ok (.list cell)
  | .dict cell => .ok (.dict cell)
  | _ => .error (.notIterable (heap.typeName value))

/-- Begin a pass. -/
def pass (heap : Heap) : Iterable → Pass
  | tuple cell => .tuple cell 0
  | list cell => .list cell 0
  | dict cell => .entries (heap.dictEntries cell)

end Iterable

namespace Pass

/-- How many more items a pass can give at most. -/
def bound (heap : Heap) : Pass → Nat
  | tuple cell position => (heap.tupleItems cell).length - position
  | list cell position => (heap.listItems cell).length - position
  | entries rest => rest.length

/-- What a pass holds. -/
def hold : Pass → Hold
  | tuple cell _ => .cell cell
  | list cell _ => .cell cell
  | entries rest => .entries rest

/-- Take the next item. -/
def next : Pass → Act (Option (Value × Pass))
  | tuple cell position => do
      return ((← Act.heap).tupleItems cell)[position]?.map (·, tuple cell (position + 1))
  | list cell position => do
      return ((← Act.heap).listItems cell)[position]?.map (·, list cell (position + 1))
  | entries [] => return none
  | entries ((key, value) :: rest) => do
      return some (← Act.newTuple [key.value, value], entries rest)

/-- Take all items that are left, at most `limit`. -/
def drain : Nat → Pass → Act (List Value)
  | 0, _ => return []
  | limit + 1, pass => do
      match ← pass.next with
      | some (item, rest) => return item :: (← drain limit rest)
      | none => return []

end Pass

namespace Act

/-- All items of one pass over a value. -/
def elements (value : Value) : Act (List Value) := do
  let heap ← heap
  let pass := (← ofExcept (Iterable.ofValue heap value)).pass heap
  pass.drain (pass.bound heap)

end Act

end ScriptCore
