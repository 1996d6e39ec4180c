import ScriptCore.Machine.Basic

/-!
# Host data as values

Texts come from the pool, sequences become lists and maps become dicts.  A container
converts all its members first, from left to right and each key before its value, and only
then admits its keys.
-/

namespace ScriptCore.Act

mutual

/-- Convert a datum of the host. -/
def convert : Datum → Act Value
  | .null => return .nothing
  | .bool value => return .bool value
  | .int value => return .int value
  | .float value => return .double value
  | .text value => do return .string (← intern value)
  | .seq items => do newList (← convertAll items)
  | .tuple items => do newTuple (← convertAll items)
  | .map entries => do newDict (← convertEntries entries)
  | .set items => do newSet (← convertAll items)
  | .foreign typeName => fail (.foreignDatum typeName)

/-- Convert data from left to right. -/
def convertAll : List Datum → Act (List Value)
  | [] => return []
  | datum :: rest => do
      let value ← convert datum
      return value :: (← convertAll rest)

/-- Convert entries from left to right, each key before its value. -/
def convertEntries : List (Datum × Datum) → Act (List (Value × Value))
  | [] => return []
  | entry :: rest => do
      let pair ← convertEntry entry
      return pair :: (← convertEntries rest)

/-- Convert a key, then its value. -/
def convertEntry : Datum × Datum → Act (Value × Value)
  | (key, value) => do
      let key ← convert key
      return (key, ← convert value)

end

end ScriptCore.Act
