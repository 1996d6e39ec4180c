import ScriptCore.Script.Tree
import ScriptCore.Text.Str

/-!
# Values

Every datum the language can produce.  Plain data is in the value itself; aggregates,
classes, objects and functions are cells of the heap, and the value names its cell.

Two values are equal when they are of one variant and hold equal payloads; values with a
cell are equal when they name the same cell.  Bound methods are made anew at each access,
so they are compared by what they bind.
-/

namespace ScriptCore

/-- The number of a heap cell. -/
abbrev CellId := Nat

/-- A natively implemented function under its name. -/
structure Builtin where
  name : Str
  native : Native
  serial : Nat
deriving Inhabited

/-- A value of the language. -/
inductive Value
  | nothing
  | bool (value : Bool)
  | int (value : Int64)
  | double (value : Binary64)
  | string (value : Str)
  | tuple (cell : CellId)
  | list (cell : CellId)
  | dict (cell : CellId)
  | set (cell : CellId)
  | classObject (cell : CellId)
  | object (cell : CellId)
  | function (cell : CellId)
  /-- The cell of a bound method, and the cells it binds. -/
  | method (cell receiver code : CellId)
  | builtin (builtin : Builtin)
deriving Inhabited

/-- What tells two instances apart. -/
inductive Identity
  | text (serial : Nat)
  | cell (cell : CellId)
  | native (serial : Nat)
deriving Repr, DecidableEq

namespace Value

/-- The number of a value's variant. -/
def variant : Value → Nat
  | nothing => 0
  | bool _ => 1
  | int _ => 2
  | double _ => 3
  | string _ => 4
  | tuple _ => 5
  | list _ => 6
  | dict _ => 7
  | set _ => 8
  | classObject _ => 9
  | object _ => 10
  | function _ => 11
  | method _ _ _ => 12
  | builtin _ => 13

/-- The cell a value refers to, if it refers to one. -/
def cell? : Value → Option CellId
  | tuple cell => some cell
  | list cell => some cell
  | dict cell => some cell
  | set cell => some cell
  | classObject cell => some cell
  | object cell => some cell
  | function cell => some cell
  | method cell _ _ => some cell
  | nothing => none
  | bool _ => none
  | int _ => none
  | double _ => none
  | string _ => none
  | builtin _ => none

/-- The references a value holds: its cell, if it has one. -/
def references (value : Value) : List CellId :=
  value.cell?.toList

/-- The references a value holds, and further ones after them. -/
def referencesBefore (value : Value) (further : List CellId) : List CellId :=
  match value.cell? with
  | some cell => cell :: further
  | none => further

/-- The references several values hold, one for each that holds one. -/
def allReferences : List Value → List CellId
  | [] => []
  | value :: rest => value.referencesBefore (allReferences rest)

/-- The identity of a value; plain data has none. -/
def identity? : Value → Option Identity
  | string value => some (.text value.serial)
  | builtin value => some (.native value.serial)
  | value => value.cell?.map .cell

/-- Equality of values. -/
def equal : Value → Value → Bool
  | nothing, nothing => true
  | bool left, bool right => left == right
  | int left, int right => left == right
  | double left, double right => left.equal right
  | string left, string right => left.equal right
  | tuple left, tuple right => left == right
  | list left, list right => left == right
  | dict left, dict right => left == right
  | set left, set right => left == right
  | classObject left, classObject right => left == right
  | object left, object right => left == right
  | function left, function right => left == right
  | builtin left, builtin right => left.serial == right.serial
  | method _ leftReceiver leftCode, method _ rightReceiver rightCode =>
      leftReceiver == rightReceiver && leftCode == rightCode
  | _, _ => false

/-- Whether both values have an identity, and it is the same. -/
def same? (left right : Value) : Option Bool := do
  let leftIdentity ← left.identity?
  let rightIdentity ← right.identity?
  return leftIdentity == rightIdentity

/-- Whether a value can be called. -/
def isCallable : Value → Bool
  | function _ => true
  | builtin _ => true
  | method _ _ _ => true
  | classObject _ => true
  | _ => false

/-- Whether a value may be a key: all but the mutable containers. -/
def isHashable : Value → Bool
  | list _ => false
  | dict _ => false
  | set _ => false
  | _ => true

end Value

end ScriptCore
