import ScriptCore.Machine.Basic

/-!
# Scopes

A frame sees its own names, then those of the frames around it, then the globals, then the
builtins.  The frame around a call frame is the one its function was made in, never the
caller's.  All top-level frames share the globals as their names.
-/

namespace ScriptCore

namespace Machine

/-- A frame's own names. -/
def localsOf (machine : Machine) (frame : CellId) : Names :=
  match machine.heap.frame? frame with
  | some { scope := .global, .. } => machine.globals
  | some { scope := .nested _ bindings, .. } => bindings
  | none => []

/-- Replace a frame's own names. -/
def setLocals (machine : Machine) (frame : CellId) (names : Names) : Machine :=
  match machine.heap.frame? frame with
  | some { scope := .global, .. } => { machine with globals := names }
  | some { scope := .nested parent _, captured } =>
      { machine with
        heap := machine.heap.set frame (.frame { scope := .nested parent names, captured }) }
  | none => machine

/-- Bind a name in a frame's own names. -/
def define (machine : Machine) (frame : CellId) (name : Str) (value : Value) : Machine :=
  machine.setLocals frame (Names.insert (machine.localsOf frame) name value)

/-- Remove a name from a frame's own names. -/
def removeLocal (machine : Machine) (frame : CellId) (name : String) : Machine :=
  machine.setLocals frame (Names.erase (machine.localsOf frame) name)

/-- Resolve a name from a frame. -/
def lookup (machine : Machine) (frame : CellId) (name : String) : Except Error Value :=
  let inChain := (machine.heap.frameChain frame).findSome? fun scope =>
    Names.find? (machine.localsOf scope) name
  match inChain <|> Names.find? machine.globals name with
  | some value => .ok value
  | none =>
      match machine.builtin? name with
      | some builtin => .ok (.builtin builtin)
      | none => .error (.undefinedName name)

/-- The number of frames around a frame. -/
def depth (machine : Machine) (frame : CellId) : Nat :=
  (machine.heap.frameChain frame).length - 1

end Machine

namespace Heap

/-- Mark a frame and those around it as captured, up to the first that already is; at most
as many frames as the first argument says. -/
def captureUpTo : Nat → CellId → Heap → Heap
  | 0, _, heap => heap
  | limit + 1, id, heap =>
      match heap.frame? id with
      | some frame =>
          if frame.captured then heap
          else
            let marked := heap.set id (.frame { frame with captured := true })
            match frame.parent? with
            | some parent => captureUpTo limit parent marked
            | none => marked
      | none => heap

/-- Record that a function holds a frame, and through it every frame around it. -/
def capture (heap : Heap) (frame : CellId) : Heap :=
  captureUpTo (heap.size + 1) frame heap

end Heap

namespace Act

/-- A new top-level frame. -/
def topFrame : Act CellId :=
  alloc (.frame { scope := .global })

/-- A new frame inside another. -/
def childFrame (parent : CellId) : Act CellId :=
  alloc (.frame { scope := .nested parent [] })

/-- Bind a name in a frame's own names. -/
def define (frame : CellId) (name : Str) (value : Value) : Act Unit :=
  modify fun machine => machine.define frame name value

end Act

end ScriptCore
