import ScriptCore.Key
import ScriptCore.Names

/-!
# Heap cells

What the heap stores: containers, classes, objects, functions, bound methods and frames.
`Cell.references` lists the references a cell holds, with their multiplicity; counting and
freeing read it.  A tree holds no reference, nor does a native: what the host keeps for them
it holds from outside, as it holds its handles.
-/

namespace ScriptCore

/-- A class: its name, its superclass and its own attributes. -/
structure ClassCell where
  name : Str
  superclass : Option CellId
  attributes : Names
deriving Inhabited

/-- An instance: its class and its own attributes. -/
structure ObjectCell where
  classCell : CellId
  attributes : Names
deriving Inhabited

/-- A function: a closure over the frame it was made in, which is the one cell it refers to.
The defaults belong to the last parameters. -/
structure FunctionCell where
  name : Str
  params : List Str
  defaults : List Expr
  body : Block
  defining : CellId
deriving Inhabited

/-- What a frame's own names are: those of the whole machine at the top level, its own
inside a function. -/
inductive Scope
  | global
  | nested (parent : CellId) (bindings : Names)
deriving Inhabited

/-- A lexical scope record.  `captured` is set once a function is made in the frame or in
one it encloses. -/
structure Frame where
  scope : Scope
  captured : Bool := false
deriving Inhabited

/-- A cell of the heap. -/
inductive Cell
  | tuple (items : List Value)
  | list (items : List Value)
  | dict (entries : Entries)
  | set (members : Members)
  | classObject (content : ClassCell)
  | object (content : ObjectCell)
  | function (content : FunctionCell)
  | method (receiver code : CellId)
  | frame (content : Frame)
deriving Inhabited

namespace Frame

/-- The enclosing frame. -/
def parent? (frame : Frame) : Option CellId :=
  match frame.scope with
  | .global => none
  | .nested parent _ => some parent

/-- The references a frame holds.  The names of a top-level frame belong to the machine. -/
def references (frame : Frame) : List CellId :=
  match frame.scope with
  | .global => []
  | .nested parent bindings => parent :: Names.references bindings

/-- Whether a frame is at the top level. -/
def isTop (frame : Frame) : Bool :=
  frame.parent?.isNone

/-- The same frame without names of its own. -/
def cleared (frame : Frame) : Frame :=
  match frame.scope with
  | .global => frame
  | .nested parent _ => { frame with scope := .nested parent [] }

end Frame

namespace Cell

/-- The references a cell holds, one for each place that holds it. -/
def references : Cell → List CellId
  | tuple items => Value.allReferences items
  | list items => Value.allReferences items
  | dict entries => Entries.references entries
  | set members => Members.references members
  | classObject content =>
      content.superclass.toList ++ Names.references content.attributes
  | object content => content.classCell :: Names.references content.attributes
  | function content => [content.defining]
  | method receiver code => [receiver, code]
  | frame content => content.references

/-- The references held where a cell may be; none where there is none. -/
def referencesOf? : Option Cell → List CellId
  | some cell => cell.references
  | none => []

end Cell

end ScriptCore
