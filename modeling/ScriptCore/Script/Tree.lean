import ScriptCore.Datum
import ScriptCore.Error

/-!
# Program trees

The trees a small evaluator runs: expressions, statements and blocks.  Most expressions
evaluate their operands from left to right and then perform one operation on the values;
the others decide themselves what is evaluated.
-/

namespace ScriptCore

/-- The standard builtin functions. -/
inductive Standard
  | len
  | print
  | repr
  | str
  | list
  | tuple
  | set
  | isinstance
  | getattr
  | setattr
  | hasattr
  | delattr
  | delitem
deriving Repr, DecidableEq, Inhabited

namespace Standard

/-- Every standard builtin, in the order of registration. -/
def all : List Standard :=
  [len, print, repr, str, list, tuple, set, isinstance, getattr, setattr, hasattr, delattr,
    delitem]

/-- The name a standard builtin is registered under. -/
def name : Standard → String
  | len => "len"
  | print => "print"
  | repr => "repr"
  | str => "str"
  | list => "list"
  | tuple => "tuple"
  | set => "set"
  | isinstance => "isinstance"
  | getattr => "getattr"
  | setattr => "setattr"
  | hasattr => "hasattr"
  | delattr => "delattr"
  | delitem => "delitem"

end Standard

/-- What a natively implemented function does. -/
inductive Native
  | standard (function : Standard)
  /-- Give the arguments as a tuple. -/
  | arguments
  /-- Give the depth of the calling frame and the number of arguments. -/
  | whereabouts
  /-- Call the first argument with the others, in the calling frame. -/
  | apply
  /-- Look the first argument up as a name in the calling frame. -/
  | peek
  /-- Fail always. -/
  | fail
deriving Repr, DecidableEq, Inhabited

/-- An operation on values that are already evaluated. -/
inductive Operation
  /-- A literal of the host. -/
  | literal (datum : Datum)
  /-- A string that is not pooled. -/
  | plain (text : String)
  | list
  | tuple
  | set
  /-- The operands are keys and values in turn. -/
  | dict
  | name (name : String)
  | localName (name : String)
  | define (name : String)
  | defineGlobal (name : String)
  | remove (name : String)
  | locals
  | depth
  | isTop
  | builtin (name : String)
  | keepFrame (handle : String)
  | frameIs (handle : String)
  | parentIs (handle : String)
  | native (name : String) (native : Native)
  | params
  | makeObject
  | bind
  | findAttr (name : String)
  | isSubclass
  | ancestors
  | ownNames
  | getAttr (name : String)
  | setAttr (name : String)
  | delAttr (name : String)
  | getItem
  | setItem
  | delItem
  | truth
  | length
  | typeName
  | isCallable
  | repr
  | iterate
  | key
  | equal
  | same
  | add
  | raise (kind : ErrorKind) (text : String)
  | watch (name : String)
  | alive (name : String)
  | collect
deriving Inhabited

mutual

/-- An expression. -/
inductive Expr
  | operate (operation : Operation) (operands : List Expr)
  | call (callee : Expr) (arguments : List Expr)
  | function (name : String) (params : List String) (defaults : List Expr)
      (body : List Statement)
  /-- A class, its superclass or nothing, and its attributes in order. -/
  | makeClass (name : String) (superclass : Expr) (attributes : List (String × Expr))
  | choose (condition onTrue onFalse : Expr)
  /-- One expression after the other; the value is that of the last. -/
  | sequence (parts : List Expr)
  /-- The handler runs if the body fails with the kind; without one, on any failure. -/
  | attempt (body : Expr) (kind : Option ErrorKind) (handler : Expr)
  /-- A failure as a tuple of its kind and shown wording. -/
  | capture (body : Expr)

/-- A statement. -/
inductive Statement
  | expr (expression : Expr)
  | give (result : Expr)
  | choose (condition : Expr) (onTrue onFalse : List Statement)
  | forEach (name : String) (container : Expr) (body : List Statement)
  | loop (times : Nat) (body : List Statement)

end

instance : Inhabited Expr := ⟨.sequence []⟩

instance : Inhabited Statement := ⟨.expr default⟩

/-- A block of statements, run in order. -/
abbrev Block := List Statement

end ScriptCore
