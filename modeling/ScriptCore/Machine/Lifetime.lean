import ScriptCore.Heap.Census
import ScriptCore.Machine.Basic

/-!
# Lifetimes

A cell exists while something refers to it.  `settle` removes what nothing refers to, over
and over, so what is left is held from outside or by a cycle of cells.  Cells are removed
only here, just before something asks whether a cell exists or how often it is referred to.
-/

namespace ScriptCore

namespace Machine

/-- The heap with the census of all references there are, after everything that nothing
refers to is gone. -/
def counted (machine : Machine) : Counted :=
  Counted.settle { heap := machine.heap, census := machine.heap.census machine.roots }

/-- Remove everything that nothing refers to any more. -/
def settle (machine : Machine) : Machine :=
  { machine with heap := machine.counted.heap }

end Machine

end ScriptCore
