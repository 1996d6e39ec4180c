import ScriptCore.Machine.Basic

/-!
# Building a machine

A new machine has the standard builtins, unless they are left out, and then further
natives in the order of registration.  A later registration under a name replaces an
earlier one.
-/

namespace ScriptCore

namespace Machine

/-- Register a native under a name. -/
def register (machine : Machine) (name : String) (native : Native) : Machine :=
  let (string, interner, supply) := machine.interner.intern machine.supply name
  let (serial, supply) := supply.fresh
  let others := machine.builtins.filter fun builtin => builtin.name.text != name
  { machine with
    interner
    supply
    builtins := others ++ [{ name := string, native, serial }] }

/-- The standard builtins with their names. -/
def standardNatives : List (String × Native) :=
  Standard.all.map fun function => (function.name, .standard function)

/-- A new machine. -/
def build (standard : Bool) (natives : List (String × Native)) : Machine :=
  ((if standard then standardNatives else []) ++ natives).foldl
    (fun machine registration => machine.register registration.1 registration.2) {}

/-- A new machine with the standard builtins only. -/
def standard : Machine :=
  build true []

/-- The names of all registered builtins, in increasing order. -/
def builtinNames (machine : Machine) : List String :=
  Text.sort (machine.builtins.map fun builtin => builtin.name.text)

/-- The names of the globals, in increasing order. -/
def globalNames (machine : Machine) : List String :=
  Text.sort (machine.globals.map fun binding => binding.1.text)

end Machine

end ScriptCore
