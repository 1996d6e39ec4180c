import ScriptCore.Heap.Census

/-!
# Tracing a frame

The graph around a frame is everything reachable from it without entering a top-level
frame or one of the frames around it.  It is explored in depth: what a cell refers to is explored
before the reference is counted.  Of each of its nodes it is known how many references to it there
are, and how many of these are held by nodes.  A node with more of the former is referred to from
outside, and what can be reached from such a node is live.

`Cell.targets` says where a trace goes from each kind of cell.
-/

namespace ScriptCore

/-- The cell that a trace goes to from a value; from plain data it goes nowhere. -/
def Value.target? : Value → Option CellId
  | tuple cell => some cell
  | list cell => some cell
  | dict cell => some cell
  | set cell => some cell
  | classObject cell => some cell
  | object cell => some cell
  | function cell => some cell
  | method cell _ _ => some cell
  | nothing | bool _ | int _ | double _ | string _ | builtin _ => none

/-- The cells that a trace goes to from a cell: from a dict by turns to a key and its value, and
from a class, an object or a frame to what it belongs to before what it names. -/
def Cell.targets : Cell → List CellId
  | tuple items => items.filterMap Value.target?
  | list items => items.filterMap Value.target?
  | dict entries => entries.flatMap fun (key, value) => [key.value, value].filterMap Value.target?
  | set members => members.filterMap fun member => member.value.target?
  | classObject content =>
      content.superclass.toList ++ content.attributes.filterMap fun (_, value) => value.target?
  | object content =>
      content.classCell :: content.attributes.filterMap fun (_, value) => value.target?
  | function content => [content.defining]
  | method receiver code => [receiver, code]
  | frame { scope := .global, .. } => []
  | frame { scope := .nested parent bindings, .. } =>
      parent :: bindings.filterMap fun (_, value) => value.target?

/-- The cells that a trace goes to from a cell; none if it is gone. -/
def Heap.targetsOf (heap : Heap) (id : CellId) : List CellId :=
  match heap.get? id with
  | some cell => cell.targets
  | none => []

/-- A set of cells, as a mark for each cell number. -/
structure Marks where
  marked : Array Bool
deriving Repr, Inhabited

namespace Marks

/-- None of `size` cells. -/
def empty (size : Nat) : Marks :=
  ⟨Array.replicate size false⟩

/-- Whether a cell is marked. -/
def contains (marks : Marks) (id : CellId) : Bool :=
  marks.marked[id]?.getD false

/-- Mark a cell. -/
def insert (marks : Marks) (id : CellId) : Marks :=
  ⟨marks.marked.setIfInBounds id true⟩

/-- The marks of the given cells, of `size` cells. -/
def ofList (size : Nat) (ids : List CellId) : Marks :=
  ids.foldl insert (empty size)

/-- A marked cell stays marked, and no other cell becomes so. -/
theorem contains_insert (marks : Marks) {id : CellId} (inside : id < marks.marked.size)
    (other : CellId) :
    (marks.insert id).contains other = (other == id || marks.contains other) := by
  by_cases same : other = id
  · subst same
    simp [insert, contains, Array.getElem?_setIfInBounds_self_of_lt inside]
  · have unequal : id ≠ other := fun equal => same equal.symm
    simp [insert, contains, same, Array.getElem?_setIfInBounds_ne unequal]

end Marks

/-- Everything reachable from `pending` through `next` that is not marked, in the order of
discovery; at most `limit` cells. -/
def search (next : CellId → List CellId) : Nat → Marks → List CellId → List CellId
  | 0, _, _ => []
  | limit + 1, marks, pending =>
      match pending.dropWhile marks.contains with
      | [] => []
      | id :: rest => id :: search next limit (marks.insert id) (next id ++ rest)

/-- Everything reachable from `starts` through `next`, among `size` cells. -/
def reachable (size : Nat) (next : CellId → List CellId) (starts : List CellId) :
    List CellId :=
  search next size (Marks.empty size) starts

namespace Heap

/-- Whether a trace enters a cell: all but top-level frames and the frames `around` the one
it starts from. -/
def enters (heap : Heap) (around : List CellId) (id : CellId) : Bool :=
  !around.contains id && !((heap.frame? id).any Frame.isTop)

end Heap

/-- What is known of a cell of a graph. -/
structure Node where
  /-- How many references to the cell there are. -/
  strong : Nat
  /-- How many of them are held by cells of the graph, as far as these are explored. -/
  internal : Nat := 0
  /-- The cells of the graph that the cell refers to, as far as it is explored. -/
  edges : Array CellId := #[]
deriving Repr, Inhabited

namespace Node

/-- One more cell of the graph refers to this one. -/
def referred (node : Node) : Node :=
  { node with internal := node.internal + 1 }

/-- This cell also refers to `target`. -/
def referring (node : Node) (target : CellId) : Node :=
  { node with edges := node.edges.push target }

end Node

/-- A graph as far as it is explored: its cells by number, and in the order of discovery, the
latest first. -/
structure Exploration where
  nodes : Array (Option Node)
  entered : List CellId := []
deriving Repr, Inhabited

namespace Exploration

/-- None of `size` cells is explored. -/
def empty (size : Nat) : Exploration :=
  { nodes := Array.replicate size none }

/-- What is known of a cell, if it is part of the graph. -/
def node? (exploration : Exploration) (id : CellId) : Option Node :=
  (exploration.nodes[id]?).join

/-- Make a cell part of the graph. -/
def enter (exploration : Exploration) (id : CellId) (strong : Nat) : Exploration :=
  { nodes := exploration.nodes.setIfInBounds id (some { strong })
    entered := id :: exploration.entered }

/-- Count a reference, if it leads to a cell of the graph. -/
def link (exploration : Exploration) (holder : CellId) : Option CellId → Exploration
  | none => exploration
  | some target =>
      { exploration with
        nodes := (exploration.nodes.modify target (·.map Node.referred)).modify holder
          (·.map (·.referring target)) }

end Exploration

/-- A traced graph. -/
structure Trace where
  /-- The number of cells ever made. -/
  size : Nat
  /-- The cells of the graph, in the order of discovery. -/
  nodes : List CellId
  /-- The references a node holds to nodes. -/
  edges : CellId → List CellId
  /-- How many references to a node there are. -/
  strong : CellId → Nat
  /-- How many of them are held by nodes. -/
  internal : CellId → Nat

namespace Counted

/-- Visit a cell through a reference to it; gives the cell if it is part of the graph.  At its
first visit a cell is explored: one after the other, its targets are visited, and each such
reference is counted once what it leads to is explored.  At most `limit` cells deep. -/
def visit (counted : Counted) (around : List CellId) :
    Nat → CellId → Exploration → Option CellId × Exploration
  | 0, _, exploration => (none, exploration)
  | limit + 1, id, exploration =>
      if counted.heap.enters around id then
        if (exploration.node? id).isSome then (some id, exploration)
        else
          (some id, (counted.heap.targetsOf id).foldl
            (fun exploration held =>
              let (target, explored) := visit counted around limit held exploration
              explored.link id target)
            (exploration.enter id (counted.count id)))
      else (none, exploration)

/-- Explore the graph around a frame. -/
def explore (counted : Counted) (root : CellId) : Exploration :=
  let heap := counted.heap
  (counted.visit (heap.frameChain root).tail (heap.size + 1) root (.empty heap.size)).2

/-- Trace the graph around a frame. -/
def trace (counted : Counted) (root : CellId) : Trace :=
  let explored := counted.explore root
  { size := counted.heap.size
    nodes := explored.entered.reverse
    edges := fun id => (explored.node? id).elim [] fun node => node.edges.toList
    strong := fun id => (explored.node? id).elim 0 Node.strong
    internal := fun id => (explored.node? id).elim 0 Node.internal }

end Counted

namespace Trace

/-- Leave one reference to a node out of account. -/
def discount (trace : Trace) (root : CellId) : Trace :=
  { trace with
    strong := fun id => if id = root then trace.strong id - 1 else trace.strong id }

/-- The nodes referred to from outside. -/
def outside (trace : Trace) : List CellId :=
  trace.nodes.filter fun id => trace.internal id < trace.strong id

/-- What can be reached from the nodes referred to from outside. -/
def live (trace : Trace) : List CellId :=
  reachable trace.size trace.edges trace.outside

/-- The nodes that are not live. -/
def garbage (trace : Trace) : List CellId :=
  let live := Marks.ofList trace.size trace.live
  trace.nodes.filter fun id => !live.contains id

end Trace

end ScriptCore
