import ScriptCore.Value

/-!
# Keys and keyed entries

A key is a value that may stand in a dict or set.  Entries are kept in the order in which
their keys first came; a key equal to a stored one finds that entry, so a store under it
keeps the stored key and replaces the value.  A NaN equals nothing, so each store under
one adds an entry.
-/

namespace ScriptCore

/-- A value admitted as a dict key or set member. -/
structure Key where
  value : Value
  hashable : value.isHashable = true := by rfl

namespace Key

/-- Keys are equal when their values are. -/
def equal (left right : Key) : Bool :=
  left.value.equal right.value

/-- The type name of a mutable container, which no key may be. -/
def unhashableName : Value → String
  | .list _ => "list"
  | .dict _ => "dict"
  | _ => "set"

/-- Admit a value as a key. -/
def ofValue (value : Value) : Except Error Key :=
  if hashable : value.isHashable = true then .ok ⟨value, hashable⟩
  else .error (.unhashable (unhashableName value))

theorem value_of_ofValue {value : Value} {key : Key} (admitted : ofValue value = .ok key) :
    key.value = value := by
  unfold ofValue at admitted
  split at admitted
  · cases admitted
    rfl
  · cases admitted

/-- A pooled or plain string as a key. -/
def ofStr (string : Str) : Key :=
  ⟨.string string, rfl⟩

/-- A piece of the data a key gives to a hash function. -/
inductive Fed
  /-- The number of the variant. -/
  | variant (number : Nat)
  | bool (value : Bool)
  | int (value : Int64)
  | bits (value : UInt64)
  | text (value : String)
  | address (cell : CellId)
  | native (serial : Nat)
deriving Repr, DecidableEq

/-- The payload of a value as equality sees it: both zeros give the same bits, a bound method
what it binds.  A mutable container gives none. -/
def payload? : Value → Option (List Fed)
  | .nothing => some []
  | .bool value => some [.bool value]
  | .int value => some [.int value]
  | .double value => some [.bits value.plainBits]
  | .string value => some [.text value.text]
  | .tuple cell => some [.address cell]
  | .classObject cell => some [.address cell]
  | .object cell => some [.address cell]
  | .function cell => some [.address cell]
  | .builtin builtin => some [.native builtin.serial]
  | .method _ receiver code => some [.address receiver, .address code]
  | .list _ => none
  | .dict _ => none
  | .set _ => none

/-- The data a key gives to a hash function: its variant, then its payload. -/
def fed? (key : Key) : Option (List Fed) :=
  (payload? key.value).map fun payload => .variant key.value.variant :: payload

end Key

/-- The entries of a dict. -/
abbrev Entries := List (Key × Value)

namespace Entries

/-- The value stored under a key equal to `key`. -/
def find? (entries : Entries) (key : Key) : Option Value :=
  match entries with
  | [] => none
  | (stored, value) :: rest => if stored.equal key then some value else find? rest key

/-- Store a value: an entry with an equal key gets the value, otherwise an entry is
added. -/
def insert (entries : Entries) (key : Key) (value : Value) : Entries :=
  match entries with
  | [] => [(key, value)]
  | entry :: rest =>
      if entry.1.equal key then (entry.1, value) :: rest else entry :: insert rest key value

/-- Remove the entry with a key equal to `key`. -/
def erase (entries : Entries) (key : Key) : Entries :=
  match entries with
  | [] => []
  | entry :: rest => if entry.1.equal key then rest else entry :: erase rest key

/-- Entries stored one after the other. -/
def ofList (pairs : List (Key × Value)) : Entries :=
  pairs.foldl (fun entries pair => insert entries pair.1 pair.2) []

/-- The references held by the keys and values of entries. -/
def references (entries : Entries) : List CellId :=
  match entries with
  | [] => []
  | (key, value) :: rest => key.value.referencesBefore (value.referencesBefore (references rest))

end Entries

/-- The members of a set. -/
abbrev Members := List Key

namespace Members

/-- Add a member unless an equal one is there. -/
def insert (members : Members) (key : Key) : Members :=
  if members.any (fun stored => stored.equal key) then members else members ++ [key]

/-- Members added one after the other. -/
def ofList (keys : List Key) : Members :=
  keys.foldl insert []

/-- The references held by members. -/
def references (members : Members) : List CellId :=
  match members with
  | [] => []
  | member :: rest => member.value.referencesBefore (references rest)

end Members

end ScriptCore
