import ScriptCore.Heap.Basic
import ScriptCore.Stop
import ScriptCore.Text.Interner

/-!
# The machine

The whole state of a running program: the heap, the globals, the builtin table, the
string pool, the frames kept by name, the references held by the running evaluation, the
call frames that outlived their call, and what was printed.

An action runs on the machine and may stop early; what it did until then stays done.
-/

namespace ScriptCore

/-- Call frames that were still referenced when their call returned, in the order in which
they returned, and the length at which they are looked through again. -/
structure Retained where
  frames : List CellId := []
  limit : Nat := 0
deriving Repr, Inhabited

/-- Something the running evaluation holds. -/
inductive Hold
  | cell (id : CellId)
  | value (value : Value)
  | names (names : Names)
  | entries (entries : Entries)

namespace Hold

/-- The references in something that is held. -/
def references : Hold → List CellId
  | cell id => [id]
  | value held => held.references
  | names bindings => Names.references bindings
  | entries rest => Entries.references rest

end Hold

/-- The state of a running program. -/
structure Machine where
  heap : Heap := {}
  globals : Names := []
  builtins : List Builtin := []
  interner : Interner := {}
  supply : Supply := {}
  /-- Frames kept by name from outside. -/
  handles : List (String × CellId) := []
  /-- What the running evaluation holds. -/
  held : List Hold := []
  retained : Retained := {}
  /-- Lists watched by name without being kept. -/
  watched : List (String × CellId) := []
  /-- What was printed so far. -/
  output : String := ""
deriving Inhabited

/-- Actions on the machine. -/
abbrev Act := EStateM Stop Machine

namespace Machine

/-- The references held from outside the heap: by the globals, by kept frames and by the
running evaluation. -/
def roots (machine : Machine) : List CellId :=
  Names.references machine.globals ++ machine.handles.map Prod.snd ++
    machine.held.flatMap Hold.references

/-- All references there are, with multiplicity. -/
def references (machine : Machine) : List CellId :=
  machine.roots ++ machine.heap.references

/-- The builtin registered under a name. -/
def builtin? (machine : Machine) (name : String) : Option Builtin :=
  machine.builtins.find? fun builtin => builtin.name.text == name

/-- The frame kept under a name. -/
def handle? (machine : Machine) (name : String) : Option CellId :=
  (machine.handles.find? fun handle => handle.1 == name).map Prod.snd

end Machine

namespace Act

/-- Stop with a failure of the language. -/
def fail (error : Error) : Act α :=
  throw (.error error)

/-- Stop because the program tree makes no sense. -/
def malformed (reason : String) : Act α :=
  throw (.malformed reason)

/-- The outcome of a pure computation as an action. -/
def ofExcept : Except Error α → Act α
  | .ok value => pure value
  | .error error => fail error

/-- Stop as a finished action did, or give its value. -/
def resume : Except Stop α → Act α
  | .ok value => pure value
  | .error stop => throw stop

/-- Read the heap. -/
def heap : Act Heap := do
  return (← get).heap

/-- Make a cell. -/
def alloc (cell : Cell) : Act CellId :=
  modifyGet fun machine =>
    let (id, heap) := machine.heap.alloc cell
    (id, { machine with heap })

/-- What follows a reading of the heap runs on the same machine. -/
theorem heap_bind (next : Heap → Act α) (machine : Machine) :
    (heap >>= next) machine = next machine.heap machine :=
  rfl

/-- What follows the making of a cell gets its number. -/
theorem alloc_bind (cell : Cell) (next : CellId → Act α) (machine : Machine) :
    (alloc cell >>= next) machine =
      next machine.heap.size { machine with heap := (machine.heap.alloc cell).2 } :=
  rfl

/-- Replace the content of a cell. -/
def store (id : CellId) (cell : Cell) : Act Unit :=
  modify fun machine => { machine with heap := machine.heap.set id cell }

/-- The pool's instance of a text. -/
def intern (text : String) : Act Str :=
  modifyGet fun machine =>
    let (string, interner, supply) := machine.interner.intern machine.supply text
    (string, { machine with interner, supply })

/-- A number no instance has yet. -/
def fresh : Act Nat :=
  modifyGet fun machine =>
    let (serial, supply) := machine.supply.fresh
    (serial, { machine with supply })

/-- A new string that is not in the pool. -/
def newStr (text : String) : Act Str := do
  return ⟨text, ← fresh⟩

/-- A new string value that is not in the pool. -/
def newString (text : String) : Act Value := do
  return .string (← newStr text)

/-- A new tuple. -/
def newTuple (items : List Value) : Act Value := do
  return .tuple (← alloc (.tuple items))

/-- A new list. -/
def newList (items : List Value) : Act Value := do
  return .list (← alloc (.list items))

/-- A new dict of entries whose keys are not yet checked; the first that may not be a key
fails. -/
def newDict (pairs : List (Value × Value)) : Act Value := do
  let keyed ← ofExcept (pairs.mapM fun pair => do return (← Key.ofValue pair.1, pair.2))
  return .dict (← alloc (.dict (Entries.ofList keyed)))

/-- A new set of members that are not yet checked; the first that may not be a key
fails. -/
def newSet (items : List Value) : Act Value := do
  let keys ← ofExcept (items.mapM Key.ofValue)
  return .set (← alloc (.set (Members.ofList keys)))

/-- Print a text. -/
def print (text : String) : Act Unit :=
  modify fun machine => { machine with output := machine.output ++ text }

/-- Run an action while the evaluation also holds something.  Whatever the action held is let
go at its end, however it ends. -/
def holding (held : Hold) (action : Act α) : Act α := fun machine =>
  match action { machine with held := held :: machine.held } with
  | .ok value after => .ok value { after with held := machine.held }
  | .error stop after => .error stop { after with held := machine.held }

/-- Run an action; a failure of the language goes to the handler. -/
def handling (action : Act α) (handler : Error → Act α) : Act α := fun machine =>
  match action machine with
  | .error (.error error) after => handler error after
  | result => result

end Act

end ScriptCore
