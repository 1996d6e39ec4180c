import ScriptCore.Heap.Cell

/-!
# The heap

Cells are numbered in the order in which they are made, and a number is never used
again, so a cell that is gone stays gone.  Reading a cell of the wrong variant, or one
that is gone, gives nothing.  Each change of a cell is made at once, so no cell is in the
middle of a change when a frame is released or the retained frames are looked through.
-/

namespace ScriptCore

/-- The cells made so far; a freed one is absent. -/
structure Heap where
  cells : Array (Option Cell) := #[]
deriving Inhabited

namespace Heap

/-- The number of cells ever made. -/
def size (heap : Heap) : Nat :=
  heap.cells.size

/-- The cell with a number, if it still exists. -/
def get? (heap : Heap) (id : CellId) : Option Cell :=
  (heap.cells[id]?).join

/-- Whether a cell exists. -/
def contains (heap : Heap) (id : CellId) : Bool :=
  (heap.get? id).isSome

/-- Make a cell under the next number. -/
def alloc (heap : Heap) (cell : Cell) : CellId × Heap :=
  (heap.size, ⟨heap.cells.push (some cell)⟩)

/-- Replace the content of an existing cell. -/
def set (heap : Heap) (id : CellId) (cell : Cell) : Heap :=
  if heap.contains id then ⟨heap.cells.setIfInBounds id (some cell)⟩ else heap

/-- Free a cell. -/
def erase (heap : Heap) (id : CellId) : Heap :=
  ⟨heap.cells.setIfInBounds id none⟩

/-- A cell that exists was made. -/
theorem lt_size_of_get? {heap : Heap} {id : CellId} {cell : Cell}
    (found : heap.get? id = some cell) : id < heap.size := by
  unfold get? at found
  cases entry : heap.cells[id]? with
  | none => simp [entry] at found
  | some content => exact (Array.getElem?_eq_some_iff.mp entry).1

/-- The next number is not in use. -/
theorem get?_size (heap : Heap) : heap.get? heap.size = none := by
  simp [get?, size]

/-- A new cell is found under its number, and all others as before. -/
theorem get?_alloc (heap : Heap) (cell : Cell) (id : CellId) :
    (heap.alloc cell).2.get? id = if id = heap.size then some cell else heap.get? id := by
  simp only [alloc, get?, size, Array.getElem?_push]
  by_cases new : id = heap.cells.size
  · simp [new]
  · simp [new]

/-- Replacing the content of a cell changes that cell alone, and only if it exists. -/
theorem get?_set (heap : Heap) (id other : CellId) (cell : Cell) :
    (heap.set id cell).get? other =
      if other = id ∧ heap.contains id then some cell else heap.get? other := by
  by_cases present : heap.contains id = true
  · by_cases same : other = id
    · subst same
      obtain ⟨content, found⟩ := Option.isSome_iff_exists.mp present
      have inside := lt_size_of_get? found
      simp only [set, present, get?, if_true, and_self]
      rw [Array.getElem?_setIfInBounds_self_of_lt (by exact inside)]
      simp
    · have unequal : id ≠ other := fun equal => same equal.symm
      simp [set, present, get?, same, Array.getElem?_setIfInBounds_ne unequal]
  · simp [set, present]

/-- A freed cell is gone, and all others are as before. -/
theorem get?_erase (heap : Heap) (id other : CellId) :
    (heap.erase id).get? other = if other = id then none else heap.get? other := by
  by_cases same : other = id
  · subst same
    by_cases inside : other < heap.cells.size
    · simp [erase, get?, Array.getElem?_setIfInBounds_self_of_lt inside]
    · simp [erase, get?, inside]
  · have unequal : id ≠ other := fun equal => same equal.symm
    simp [erase, get?, same, Array.getElem?_setIfInBounds_ne unequal]

/-- Replacing content makes no cell. -/
@[simp]
theorem size_set (heap : Heap) (id : CellId) (cell : Cell) :
    (heap.set id cell).size = heap.size := by
  unfold set
  split <;> simp [size]

/-- Freeing a cell makes no cell. -/
@[simp]
theorem size_erase (heap : Heap) (id : CellId) : (heap.erase id).size = heap.size := by
  simp [erase, size]

/-- A new cell is one more. -/
@[simp]
theorem size_alloc (heap : Heap) (cell : Cell) :
    (heap.alloc cell).2.size = heap.size + 1 := by
  simp [alloc, size]

/-- The references a cell holds; none if it is gone. -/
def referencesOf (heap : Heap) (id : CellId) : List CellId :=
  Cell.referencesOf? (heap.get? id)

/-- All references held by existing cells, with multiplicity. -/
def references (heap : Heap) : List CellId :=
  heap.cells.toList.flatMap Cell.referencesOf?

/-- The items of a tuple. -/
def tupleItems (heap : Heap) (id : CellId) : List Value :=
  match heap.get? id with
  | some (.tuple items) => items
  | _ => []

/-- The items of a list. -/
def listItems (heap : Heap) (id : CellId) : List Value :=
  match heap.get? id with
  | some (.list items) => items
  | _ => []

/-- The entries of a dict. -/
def dictEntries (heap : Heap) (id : CellId) : Entries :=
  match heap.get? id with
  | some (.dict entries) => entries
  | _ => []

/-- The members of a set. -/
def setMembers (heap : Heap) (id : CellId) : Members :=
  match heap.get? id with
  | some (.set members) => members
  | _ => []

/-- The class in a cell. -/
def class? (heap : Heap) (id : CellId) : Option ClassCell :=
  match heap.get? id with
  | some (.classObject content) => some content
  | _ => none

/-- The object in a cell. -/
def object? (heap : Heap) (id : CellId) : Option ObjectCell :=
  match heap.get? id with
  | some (.object content) => some content
  | _ => none

/-- The function in a cell. -/
def function? (heap : Heap) (id : CellId) : Option FunctionCell :=
  match heap.get? id with
  | some (.function content) => some content
  | _ => none

/-- The frame in a cell. -/
def frame? (heap : Heap) (id : CellId) : Option Frame :=
  match heap.get? id with
  | some (.frame content) => some content
  | _ => none

/-- The numbers reached from `id` by following `next`, `id` first, at most `limit` of
them. -/
def follow (next : CellId → Option CellId) : Nat → CellId → List CellId
  | 0, _ => []
  | limit + 1, id =>
      id :: match next id with
        | some further => follow next limit further
        | none => []

/-- The superclass of a class. -/
def superclass? (heap : Heap) (id : CellId) : Option CellId :=
  (heap.class? id).bind ClassCell.superclass

/-- A class, its superclass, and so on up to the root. -/
def ancestors (heap : Heap) (id : CellId) : List CellId :=
  follow heap.superclass? (heap.size + 1) id

/-- The frame around a frame. -/
def parent? (heap : Heap) (id : CellId) : Option CellId :=
  (heap.frame? id).bind Frame.parent?

/-- A frame, its parent, and so on up to the top level. -/
def frameChain (heap : Heap) (id : CellId) : List CellId :=
  follow heap.parent? (heap.size + 1) id

/-- The name of the class in a cell. -/
def className (heap : Heap) (id : CellId) : String :=
  match heap.class? id with
  | some content => content.name.text
  | none => ""

/-- The name of the class of the object in a cell. -/
def objectClassName (heap : Heap) (id : CellId) : String :=
  match heap.object? id with
  | some content => heap.className content.classCell
  | none => ""

/-- The name of the function in a cell. -/
def functionName (heap : Heap) (id : CellId) : String :=
  match heap.function? id with
  | some content => content.name.text
  | none => ""

/-- The name of a value's type. -/
def typeName (heap : Heap) : Value → String
  | .nothing => "NoneType"
  | .bool _ => "bool"
  | .int _ => "int"
  | .double _ => "float"
  | .string _ => "str"
  | .tuple _ => "tuple"
  | .list _ => "list"
  | .dict _ => "dict"
  | .set _ => "set"
  | .classObject _ => "type"
  | .object cell => heap.objectClassName cell
  | .function _ => "function"
  | .method _ _ _ => "method"
  | .builtin _ => "builtin_function_or_method"

/-- Truthiness: nothing, false, the zeros and everything empty are false. -/
def truth (heap : Heap) : Value → Bool
  | .nothing => false
  | .bool value => value
  | .int value => value != 0
  | .double value => !value.isZero
  | .string value => !value.text.isEmpty
  | .tuple cell => !(heap.tupleItems cell).isEmpty
  | .list cell => !(heap.listItems cell).isEmpty
  | .dict cell => !(heap.dictEntries cell).isEmpty
  | .set cell => !(heap.setMembers cell).isEmpty
  | _ => true

/-- The number of elements of a container, or of characters of a string. -/
def length (heap : Heap) (value : Value) : Except Error Nat :=
  match value with
  | .string value => .ok value.length
  | .tuple cell => .ok (heap.tupleItems cell).length
  | .list cell => .ok (heap.listItems cell).length
  | .dict cell => .ok (heap.dictEntries cell).length
  | .set cell => .ok (heap.setMembers cell).length
  | _ => .error (.noLength (heap.typeName value))

end Heap

end ScriptCore
