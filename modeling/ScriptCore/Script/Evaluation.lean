import ScriptCore.Report
import ScriptCore.Script.Operation

/-!
# Evaluation

Operands are evaluated from left to right, and each is held until its form is done; the
arguments of a call are handed over to it, while its callee stays held.  A class in the
making holds its superclass and the attributes it has so far.  A condition is dropped as
soon as it has decided, and the value of a statement or of a part of a sequence before the
next one runs.

Evaluation is bounded in depth.  One level of evaluation is written against the level
below it, so each rule stands alone; `evaluator` ties the levels together.
-/

namespace ScriptCore

namespace Act

/-- Evaluate operands from left to right, holding each until the last is done. -/
def evalOperands (eval : Expr → Act Value) : List Expr → Act (List Value)
  | [] => return []
  | operand :: rest => do
      let value ← eval operand
      return value :: (← holding (.value value) (evalOperands eval rest))

/-- Evaluate attributes in order.  The value comes before its name enters the pool, and a
later attribute takes the place of an earlier one of its name at once; `made`, the
attributes so far, is held meanwhile. -/
def evalAttributes (eval : Expr → Act Value) (made : Names) :
    List (String × Expr) → Act Names
  | [] => return made
  | (name, expression) :: rest => do
      let value ← holding (.names made) (eval expression)
      let name ← intern name
      evalAttributes eval (made.insert name value) rest

/-- Evaluate expressions one after the other, holding none of their values; `last` is the
value so far. -/
def evalSequence (eval : Expr → Act Value) : Value → List Expr → Act Value
  | last, [] => return last
  | _, part :: rest => do evalSequence eval (← eval part) rest

/-- Evaluate an expression in a frame; `inner` evaluates what stands inside it. -/
def evalExpr (inner : Evaluator) (frame : CellId) : Expr → Act Value
  | .operate operation operands => do
      perform frame operation (← evalOperands (inner.expr · frame) operands)
  | .call callee arguments => do
      let callee ← inner.expr callee frame
      holding (.value callee) do
        let arguments ← evalOperands (inner.expr · frame) arguments
        call inner frame callee arguments
  | .function name params defaults body => do
      let name ← intern name
      let params ← internAll params
      newFunction frame name params defaults body
  | .makeClass name superclass attributes => do
      let superclass ← inner.expr superclass frame
      holding (.value superclass) do
        let parent ← superclassOf superclass
        let name ← intern name
        newClass name parent (← evalAttributes (inner.expr · frame) [] attributes)
  | .choose condition onTrue onFalse => do
      let condition ← inner.expr condition frame
      if (← heap).truth condition then inner.expr onTrue frame
      else inner.expr onFalse frame
  | .sequence parts => evalSequence (inner.expr · frame) .nothing parts
  | .attempt body kind handler =>
      handling (inner.expr body frame) fun error =>
        if kind.all (· = error.kind) then inner.expr handler frame else fail error
  | .capture body =>
      handling (inner.expr body frame) fun error => do
        let kind ← newString error.kind.name
        let message ← newString error.shownMessage
        newTuple [kind, message]

/-- Drop the value of an inner block that ran to its end. -/
def dropLast (completion : Completion) : Completion :=
  match completion with
  | .given result => .given result
  | .reached _ => .reached .nothing

/-- Run a block a number of times, unless it gives a result. -/
def runTimes (run : Act Completion) : Nat → Act Completion
  | 0 => return .reached .nothing
  | times + 1 => do
      match ← run with
      | .given result => return .given result
      | .reached _ => runTimes run times

/-- Run a block for each item of a pass, at most `limit` items.  The rest of the pass is held
meanwhile, the item only by the name it is bound to. -/
def runEach (frame : CellId) (name : String) (run : Act Completion) :
    Nat → Pass → Act Completion
  | 0, _ => return .reached .nothing
  | limit + 1, pass => do
      match ← pass.next with
      | none => return .reached .nothing
      | some (item, rest) =>
          define frame (← intern name) item
          match ← holding rest.hold run with
          | .given result => return .given result
          | .reached _ => runEach frame name run limit rest

/-- Run a statement in a frame; `inner` runs what stands inside it. -/
def runStatement (inner : Evaluator) (frame : CellId) : Statement → Act Completion
  | .expr expression => do return .reached (← inner.expr expression frame)
  | .give result => do return .given (← inner.expr result frame)
  | .choose condition onTrue onFalse => do
      let condition ← inner.expr condition frame
      let chosen := if (← heap).truth condition then onTrue else onFalse
      return dropLast (← inner.block chosen frame)
  | .forEach name container body => do
      let container ← inner.expr container frame
      let heap ← heap
      let pass := (← ofExcept (Iterable.ofValue heap container)).pass heap
      holding (.value container)
        (runEach frame name (inner.block body frame) (pass.bound heap) pass)
  | .loop times body => runTimes (inner.block body frame) times

/-- Run statements in order until one gives a result; `last` is the value so far. -/
def runStatements (run : Statement → Act Completion) : Value → List Statement → Act Completion
  | last, [] => return .reached last
  | _, statement :: rest => do
      match ← run statement with
      | .given result => return .given result
      | .reached value => runStatements run value rest

end Act

namespace Evaluator

/-- An evaluator that runs nothing. -/
def exhausted : Evaluator where
  expr _ _ := throw .exhausted
  block _ _ := throw .exhausted

/-- Evaluation nested at most `fuel` levels deep. -/
def ofFuel : Nat → Evaluator
  | 0 => exhausted
  | fuel + 1 =>
      { expr := fun expression frame => Act.evalExpr (ofFuel fuel) frame expression
        block := fun block frame =>
          Act.runStatements (Act.runStatement (ofFuel fuel) frame) .nothing block }

/-- How deep evaluation may nest. -/
def depthLimit : Nat := 1000000

/-- The evaluator programs run with. -/
def standard : Evaluator :=
  ofFuel depthLimit

end Evaluator

end ScriptCore
