import ScriptCore.Datum

/-!
# JSON documents

A JSON document as it is read, and the host datum it stands for.  Arrays become sequences and
objects become maps with text keys.  Integers within 64 signed bits stay integers, larger
ones become doubles.
-/

namespace ScriptCore

namespace Json

/-- A number of a document. -/
inductive Number
  | unsigned (value : UInt64)
  | signed (value : Int64)
  | double (value : Binary64)
deriving Repr, DecidableEq, Inhabited

/-- The datum a number stands for. -/
def Number.toDatum : Number → Datum
  | unsigned value =>
      if value.toNat < twoPow 63 then .int (.ofNat value.toNat)
      else .float (.ofMagnitude false (Binary64.natBits value.toNat))
  | signed value => .int value
  | double value => .float value

end Json

/-- A JSON document. -/
inductive Json
  | null
  | bool (value : Bool)
  | number (value : Json.Number)
  | text (value : String)
  | array (items : List Json)
  | object (members : List (String × Json))
deriving Inhabited

namespace Json

mutual

/-- The datum a document stands for. -/
def toDatum : Json → Datum
  | null => .null
  | bool value => .bool value
  | number value => value.toDatum
  | text value => .text value
  | array items => .seq (toData items)
  | object members => .map (toEntries members)

/-- The data documents stand for. -/
def toData : List Json → List Datum
  | [] => []
  | item :: rest => item.toDatum :: toData rest

/-- The entries members of an object stand for. -/
def toEntries : List (String × Json) → List (Datum × Datum)
  | [] => []
  | member :: rest => toEntry member :: toEntries rest

/-- The entry a member of an object stands for. -/
def toEntry : String × Json → Datum × Datum
  | (name, value) => (.text name, value.toDatum)

end

/-- The datum of a document that is used as an index: an array of three is a slice. -/
def toIndex : Json → Datum
  | array [start, stop, step] => .tuple (toData [start, stop, step])
  | json => json.toDatum

end Json

end ScriptCore
