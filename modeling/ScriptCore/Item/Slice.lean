import ScriptCore.Heap.Basic
import ScriptCore.Word

/-!
# Positions and slices

An index is an integer, a truth value counting as 0 or 1, or a slice: a tuple
`(start, stop, step)` whose members are integers or nothing.  A negative position or bound
is moved forward by the length once.
-/

namespace ScriptCore

/-- A slice; an absent member takes its default. -/
structure Slice where
  start : Option Int64
  stop : Option Int64
  step : Option Int64
deriving Repr, DecidableEq, Inhabited

/-- A position or a slice. -/
inductive Index
  | position (position : Int64)
  | slice (slice : Slice)
deriving Repr, DecidableEq, Inhabited

namespace Index

/-- Move a negative position forward by the length, once. -/
def shift (length position : Int64) : Except Stop Int64 :=
  if position < 0 then Word.add position length else .ok position

/-- The place a position means in a sequence; the failure `outside` if it is not inside. -/
def resolve (outside : Error) (length : Nat) (position : Int64) : Except Stop Nat := do
  let place ← shift (Word.ofLength length) position
  if place < 0 ∨ Word.ofLength length ≤ place then throw (.error outside)
  return Word.toPlace place

end Index

namespace Slice

/-- A bound, shifted and brought between two limits; the default if it is absent. -/
def bound (length default low high : Int64) : Option Int64 → Except Stop Int64
  | none => .ok default
  | some position => do Word.clamp low high (← Index.shift length position)

/-- How far a position is from the end, in the direction of the step. -/
def distance (step stop position : Int64) : Nat :=
  if 0 < step then (stop.toInt - position.toInt).toNat else (position.toInt - stop.toInt).toNat

/-- Each step leads closer to the end. -/
theorem distance_lt {step stop position next : Int64}
    (before : (0 < step ∧ position < stop) ∨ (step < 0 ∧ stop < position))
    (further : Word.add? position step = some next) :
    distance step stop next < distance step stop position := by
  have exact := Word.add?_eq_some_iff.mp further
  simp only [distance, Int64.lt_iff_toInt_lt, Int64.toInt_zero] at before ⊢
  split <;> omega

/-- The positions from `position` on in steps of `step`, as long as they are words before `stop`
in the direction of the step. -/
def walk (step stop position : Int64) : List Nat :=
  if before : (0 < step ∧ position < stop) ∨ (step < 0 ∧ stop < position) then
    Word.toPlace position ::
      match further : Word.add? position step with
      | some next =>
          have := distance_lt before further
          walk step stop next
      | none => []
  else []
termination_by distance step stop position

/-- The positions a slice selects from a sequence, in the order of selection. -/
def positions (slice : Slice) (length : Nat) : Except Stop (List Nat) := do
  let step := slice.step.getD 1
  if step = 0 then throw (.error .zeroStep)
  let size := Word.ofLength length
  if 0 < step then
    let start ← bound size 0 0 size slice.start
    let stop ← bound size size 0 size slice.stop
    return walk step stop start
  else
    let last ← Word.add size (-1)
    let start ← bound size last (-1) last slice.start
    let stop ← bound size (-1) (-1) last slice.stop
    return walk step stop start

/-- The items at the positions a slice selects. -/
def select (slice : Slice) (items : List α) : Except Stop (List α) := do
  let table := items.toArray
  (← slice.positions table.size).mapM fun place => Fault.outside.unless table[place]?

/-- The items that remain when those from the place `start` up to the place `stop` are taken
out. -/
def drain (start stop : Nat) (items : List α) : Except Stop (List α) :=
  if start ≤ stop ∧ stop ≤ items.length then .ok (items.take start ++ items.drop stop)
  else .error (.fault .outside)

/-- The items that remain when the range of a slice is removed; its step does not count. -/
def remove (slice : Slice) (items : List α) : Except Stop (List α) := do
  let size := Word.ofLength items.length
  let start ← Index.shift size (slice.start.getD 0)
  let stop ← Index.shift size (slice.stop.getD size)
  if stop ≤ start then return items
  let start ← Word.clamp 0 size start
  let stop ← Word.clamp 0 size stop
  drain (Word.toPlace start) (Word.toPlace stop) items

/-- A member of a slice: an integer or nothing. -/
def ofBound : Value → Except Error (Option Int64)
  | .nothing => .ok none
  | .int value => .ok (some value)
  | _ => .error .badSliceBound

/-- The slice with the given members. -/
def ofValues (start stop step : Value) : Except Error Slice := do
  let start ← ofBound start
  let stop ← ofBound stop
  let step ← ofBound step
  return ⟨start, stop, step⟩

end Slice

namespace Heap

/-- Read a value as an index of a container. -/
def index (heap : Heap) (container index : Value) : Except Error Index :=
  let refuse : Except Error Index :=
    .error (.badIndex (heap.typeName container) (heap.typeName index))
  match index with
  | .int value => .ok (.position value)
  | .bool value => .ok (.position (if value then 1 else 0))
  | .tuple cell =>
      match heap.tupleItems cell with
      | [start, stop, step] => (Slice.ofValues start stop step).map .slice
      | _ => refuse
  | _ => refuse

end Heap

end ScriptCore
