import ScriptCore.Builtin
import ScriptCore.Frame.Release

/-!
# Calls

Functions, bound methods, classes and builtins can be called.  A function binds its
arguments to its parameters in a new frame inside the frame it was made in, fills missing
trailing parameters from their defaults, evaluated in the frame it was made in, and runs
its body in the new frame.  The frame is released when the call returns, with a value or
with a failure.

What a default or a body does is left to an evaluator.
-/

namespace ScriptCore

/-- How a block ended. -/
inductive Completion
  /-- It ran to its end; the value is that of its last statement. -/
  | reached (last : Value)
  /-- A result was given, which ends all blocks around it too. -/
  | given (result : Value)
deriving Inhabited

/-- How expressions and blocks are run in a frame. -/
structure Evaluator where
  expr : Expr → CellId → Act Value
  block : Block → CellId → Act Completion

namespace Evaluator

/-- Run a block as the body of a function: the result it gives, else nothing. -/
def body (evaluator : Evaluator) (block : Block) (frame : CellId) : Act Value := do
  match ← evaluator.block block frame with
  | .given result => return result
  | .reached _ => return .nothing

/-- Run a block as a program: the result it gives, else the value of its last statement. -/
def program (evaluator : Evaluator) (block : Block) (frame : CellId) : Act Value := do
  match ← evaluator.block block frame with
  | .given result => return result
  | .reached last => return last

end Evaluator

namespace FunctionCell

/-- The number of parameters without a default. -/
def required (function : FunctionCell) : Nat :=
  function.params.length - function.defaults.length

/-- Check the number of arguments. -/
def checkArity (function : FunctionCell) (given : Nat) : Except Error Unit :=
  if function.params.length < given then
    .error (.tooManyArguments function.name.text function.params.length given)
  else if given < function.required then
    .error (.missingArguments function.name.text
      (((function.params.take function.required).drop given).map Str.text))
  else .ok ()

end FunctionCell

namespace Act

/-- Make a function in a frame.  It may not have more defaults than parameters. -/
def newFunction (defining : CellId) (name : Str) (params : List Str) (defaults : List Expr)
    (body : Block) : Act Value :=
  if params.length < defaults.length then
    fail (.tooManyDefaults name.text defaults.length params.length)
  else do
    modify fun machine => { machine with heap := machine.heap.capture defining }
    return .function (← alloc (.function { name, params, defaults, body, defining }))

/-- Bind each parameter to the argument at its place. -/
def bindArguments (frame : CellId) : List (Str × Value) → Act Unit
  | [] => return ()
  | (param, argument) :: rest => do
      define frame param argument
      bindArguments frame rest

/-- Bind each parameter to the value of its default, in order. -/
def bindDefaults (evaluator : Evaluator) (defining frame : CellId) :
    List (Str × Expr) → Act Unit
  | [] => return ()
  | (param, default) :: rest => do
      let value ← evaluator.expr default defining
      define frame param value
      bindDefaults evaluator defining frame rest

/-- Bind the parameters of a function in the frame of a call. -/
def bindParams (evaluator : Evaluator) (function : FunctionCell) (frame : CellId)
    (arguments : List Value) : Act Unit := do
  ofExcept (function.checkArity arguments.length)
  bindArguments frame (function.params.zip arguments)
  let missing := (function.params.drop arguments.length).zip
    (function.defaults.drop (arguments.length - function.required))
  bindDefaults evaluator function.defining frame missing

/-- What an action came to, without stopping. -/
def outcome (action : Act α) : Act (Except Stop α) := fun machine =>
  match action machine with
  | .ok value after => .ok (.ok value) after
  | .error stop after => .ok (.error stop) after

/-- Release the frame of a call that has returned, while its result is held. -/
def releaseFrame (frame : CellId) : Except Stop Value → Act Unit
  | .ok value => holding (.value value) (modify (Machine.release frame))
  | .error _ => modify (Machine.release frame)

/-- Call a function. -/
def callFunction (evaluator : Evaluator) (code : CellId) (arguments : List Value) :
    Act Value := do
  match (← heap).function? code with
  | none => malformed "no function in this cell"
  | some function =>
      let frame ← childFrame function.defining
      holding (.cell frame) do
        let result ← outcome do
          bindParams evaluator function frame arguments
          evaluator.body function.body frame
        releaseFrame frame result
        resume result

/-- Make an object of a class, and run the function its class has for new objects on it. -/
def instantiate (evaluator : Evaluator) (cls : CellId) (arguments : List Value) :
    Act Value := do
  let object ← newObject cls
  match (← heap).findAttr cls Attribute.initName with
  | some (.function code) =>
      holding (.cell object) do
        let _ ← holding (.cell code) (callFunction evaluator code (.object object :: arguments))
      return .object object
  | _ => return .object object

/-- Run a native that calls nothing itself. -/
def runNative (native : Native) (caller : CellId) (arguments : List Value) : Act Value :=
  match native, arguments with
  | .standard function, _ => runStandard function arguments
  | .arguments, _ => newTuple arguments
  | .whereabouts, _ => do
      let depth := (← get).depth caller
      newTuple [.int (.ofNat depth), .int (.ofNat arguments.length)]
  | .peek, .string name :: _ => do ofExcept ((← get).lookup caller name.text)
  | .peek, _ => malformed "no name to look up"
  | .fail, _ => fail (.raised .valueError s!"native failure ({arguments.length})")
  | .apply, _ => malformed "nothing to apply"

/-- Call a value from a frame; only natively implemented functions see the calling frame. -/
def call (evaluator : Evaluator) (caller : CellId) : Value → List Value → Act Value
  | .builtin builtin, arguments =>
      match builtin.native, arguments with
      | .apply, callee :: rest => holding (.value callee) (call evaluator caller callee rest)
      | native, arguments => runNative native caller arguments
  | .function code, arguments => callFunction evaluator code arguments
  | .method _ receiver code, arguments =>
      callFunction evaluator code (.object receiver :: arguments)
  | .classObject cls, arguments => instantiate evaluator cls arguments
  | callee, _ => do fail (.notCallable ((← heap).typeName callee))

end Act

end ScriptCore
