import ScriptCore.Heap.Basic

/-!
# Counting references

A census says how many references to each cell there are.  A counted heap carries its census
along: freeing or replacing a cell takes the references it held off the census, so a chain of
cells that hold each other is freed in one walk, each as soon as its last reference is gone.
-/

namespace ScriptCore

/-- How many references to each cell there are. -/
structure Census where
  counts : Array Nat
deriving Repr, Inhabited

namespace Census

/-- No reference to any of `size` cells. -/
def empty (size : Nat) : Census :=
  ⟨Array.replicate size 0⟩

/-- How many references to a cell there are. -/
def count (census : Census) (id : CellId) : Nat :=
  census.counts[id]?.getD 0

/-- One more reference to a cell. -/
def add (census : Census) (id : CellId) : Census :=
  ⟨census.counts.modify id (· + 1)⟩

/-- One reference less to a cell. -/
def remove (census : Census) (id : CellId) : Census :=
  ⟨census.counts.modify id (· - 1)⟩

/-- More references, each counted as often as it is listed. -/
def addAll (census : Census) (references : List CellId) : Census :=
  references.foldl add census

/-- Fewer references, each counted as often as it is listed. -/
def removeAll (census : Census) (references : List CellId) : Census :=
  references.foldl remove census

/-- Nothing is referred to at first. -/
@[simp]
theorem count_empty (size : Nat) (id : CellId) : (empty size).count id = 0 := by
  by_cases inside : id < size
  · simp [empty, count, inside]
  · simp [empty, count, inside]

/-- One more reference counts for its cell alone. -/
theorem count_add (census : Census) {id : CellId} (inside : id < census.counts.size)
    (other : CellId) :
    (census.add id).count other = census.count other + if other = id then 1 else 0 := by
  by_cases same : other = id
  · subst same
    simp [add, count, inside, Array.getElem_modify]
  · have unequal : id ≠ other := fun equal => same equal.symm
    simp [add, count, same, unequal, Array.getElem?_modify]

/-- One reference less counts for its cell alone. -/
theorem count_remove (census : Census) (id other : CellId) :
    (census.remove id).count other = census.count other - if other = id then 1 else 0 := by
  by_cases same : other = id
  · subst same
    by_cases inside : other < census.counts.size
    · simp [remove, count, inside, Array.getElem_modify]
    · simp [remove, count, inside]
  · have unequal : id ≠ other := fun equal => same equal.symm
    simp [remove, count, same, unequal, Array.getElem?_modify]

end Census

namespace Heap

/-- The census of the references given, and of those held by existing cells. -/
def census (heap : Heap) (outside : List CellId) : Census :=
  heap.cells.foldl (fun census cell => census.addAll (Cell.referencesOf? cell))
    ((Census.empty heap.size).addAll outside)

end Heap

/-- A heap together with the census of all references to its cells. -/
structure Counted where
  heap : Heap
  census : Census
deriving Inhabited

namespace Counted

/-- How many references to a cell there are. -/
def count (counted : Counted) (id : CellId) : Nat :=
  counted.census.count id

/-- Whether a cell exists though nothing refers to it. -/
def isUnreferenced (counted : Counted) (id : CellId) : Bool :=
  counted.heap.contains id && counted.count id == 0

/-- Free a cell, and with it the references it holds. -/
def erase (counted : Counted) (id : CellId) : Counted :=
  let references := counted.heap.referencesOf id
  { heap := counted.heap.erase id, census := counted.census.removeAll references }

/-- Free the unreferenced cells among `pending`, then those that became so, and so on; at most
`limit` cells. -/
def free : Nat → List CellId → Counted → Counted
  | 0, _, counted => counted
  | limit + 1, pending, counted =>
      match pending.dropWhile fun id => !counted.isUnreferenced id with
      | [] => counted
      | id :: rest => free limit (counted.heap.referencesOf id ++ rest) (counted.erase id)

/-- Free every cell among those given that nothing refers to, and what only it held. -/
def freeAmong (references : List CellId) (counted : Counted) : Counted :=
  counted.free counted.heap.size references

/-- The unreferenced cells with numbers below the given one, before those already found. -/
def unreferencedBelow (counted : Counted) : Nat → List CellId → List CellId
  | 0, found => found
  | id + 1, found =>
      counted.unreferencedBelow id (if counted.isUnreferenced id then id :: found else found)

/-- Free everything that nothing refers to. -/
def settle (counted : Counted) : Counted :=
  counted.freeAmong (counted.unreferencedBelow counted.heap.size [])

/-- Replace the content of a cell; what only the old content referred to is freed. -/
def replace (counted : Counted) (id : CellId) (cell : Cell) : Counted :=
  let before := counted.heap.referencesOf id
  let census := (counted.census.addAll cell.references).removeAll before
  freeAmong before { heap := counted.heap.set id cell, census }

/-- Hold a cell from outside. -/
def hold (counted : Counted) (id : CellId) : Counted :=
  { counted with census := counted.census.add id }

/-- Hold a cell from outside no longer. -/
def drop (counted : Counted) (id : CellId) : Counted :=
  freeAmong [id] { counted with census := counted.census.remove id }

end Counted

end ScriptCore
