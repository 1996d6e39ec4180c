import ScriptCore.Frame.Scope
import ScriptCore.Machine.Build
import ScriptCore.Repr
import ScriptCore.Text.Escaped

/-!
# Reports

How values, failures and the machine are shown to the outside.  Shown texts depend on
neither addresses nor the order of dict and set entries.
-/

namespace ScriptCore

/-- A value as it is shown. -/
structure Shown where
  typeName : String
  text : String
deriving Repr, DecidableEq, Inhabited

namespace Heap

/-- The shown text of a value. -/
def shownText (heap : Heap) (value : Value) : String :=
  heap.repr .canonical value

/-- Show a value. -/
def shown (heap : Heap) (value : Value) : Shown :=
  ⟨heap.typeName value, heap.shownText value⟩

end Heap

namespace Error

/-- The shown wording of a failure. -/
def shownMessage (error : Error) : String :=
  Text.maskAddresses error.message

end Error

namespace Machine

/-- A frame by its depth and its own names. -/
def describeFrame (machine : Machine) (frame : CellId) : String :=
  let names := (machine.localsOf frame).sorted.map Str.text
  "Frame \x7b depth: " ++ toString (machine.depth frame) ++ ", locals: " ++
    Text.listing names ++ " \x7d"

/-- A machine by its globals, builtins and pool. -/
def describe (machine : Machine) : String :=
  "Runtime \x7b globals: " ++ toString machine.globals.length ++ ", builtins: " ++
    Text.listing machine.builtinNames ++ ", interner: Interner \x7b len: " ++
    toString machine.interner.size ++ " \x7d \x7d"

end Machine

end ScriptCore
