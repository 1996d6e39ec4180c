import ScriptCore.Frame.Scope
import ScriptCore.Frame.Trace
import ScriptCore.Machine.Lifetime

/-!
# Releasing call frames

A function holds the frame it was made in, and that frame often holds the function, so the
two keep each other in existence.  When a call returns, its frame is traced: if nothing
outside the graph around it reaches it, the names of every frame of the graph that is not
live are cleared, which breaks the cycles.  A frame that is still reached is retained and
traced again later.
-/

namespace ScriptCore

namespace Counted

/-- Clear the names of a frame. -/
def clearFrame (counted : Counted) (id : CellId) : Counted :=
  match counted.heap.frame? id with
  | some frame => counted.replace id (.frame frame.cleared)
  | none => counted

/-- Clear the given frames in order; one that is gone by its turn is passed over.  Gives the
number of frames cleared. -/
def clearFrames : List CellId → Counted → Nat × Counted
  | [], counted => (0, counted)
  | id :: rest, counted =>
      if counted.heap.contains id then
        let (cleared, after) := clearFrames rest (counted.clearFrame id)
        (cleared + 1, after)
      else clearFrames rest counted

/-- The frames to clear for `root`: those of the graph around it that are not live, unless
`root` is live itself.  `root` has one handle of its own, which does not count. -/
def doomedFrames (counted : Counted) (root : CellId) : List CellId :=
  let garbage := ((counted.trace root).discount root).garbage
  if garbage.contains root then
    garbage.filter fun id => (counted.heap.frame? id).isSome
  else []

/-- Clear every frame around `root` that nothing outside reaches, unless `root` itself is
reached.  Gives the number of frames cleared. -/
def reclaim (counted : Counted) (root : CellId) : Nat × Counted :=
  clearFrames (counted.doomedFrames root) counted

/-- Reclaim each of the given frames that still exists, in order, each with a handle of its
own.  Gives the number of frames cleared and the frames that were reached. -/
def reclaimEach : List CellId → Counted → Nat × List CellId × Counted
  | [], counted => (0, [], counted)
  | id :: rest, counted =>
      if counted.heap.contains id then
        let (cleared, after) := (counted.hold id).reclaim id
        let (more, kept, last) := reclaimEach rest (after.drop id)
        (cleared + more, if cleared = 0 then id :: kept else kept, last)
      else reclaimEach rest counted

end Counted

namespace Retained

/-- Look through the retained frames again.  Gives the number of frames cleared. -/
def collect (retained : Retained) (counted : Counted) : Nat × Retained × Counted :=
  let (cleared, kept, after) := counted.reclaimEach retained.frames
  (cleared, { frames := kept, limit := 2 * kept.length }, after)

/-- The least length at which the retained frames are looked through. -/
def leastLimit : Nat := 64

/-- Retain a frame, and look through the retained frames if there are many. -/
def push (retained : Retained) (frame : CellId) (counted : Counted) : Retained × Counted :=
  let pushed := { retained with frames := retained.frames ++ [frame] }
  if max retained.limit leastLimit ≤ pushed.frames.length then (pushed.collect counted).2
  else (pushed, counted)

end Retained

namespace Machine

/-- Look through the retained frames again.  Gives the number of frames cleared. -/
def collect (machine : Machine) : Nat × Machine :=
  let (cleared, retained, after) := machine.retained.collect machine.counted
  (cleared, { machine with retained, heap := after.heap })

/-- Give up the handle to the frame of a call that has returned. -/
def release (frame : CellId) (machine : Machine) : Machine :=
  if (machine.heap.frame? frame).any Frame.captured then
    let counted := machine.counted
    if counted.count frame = 1 then { machine with heap := counted.heap }
    else
      let (cleared, after) := counted.reclaim frame
      if cleared = 0 then
        let (retained, last) := machine.retained.push frame after
        { machine with retained, heap := last.heap }
      else { machine with heap := after.heap }
  else machine

end Machine

end ScriptCore
