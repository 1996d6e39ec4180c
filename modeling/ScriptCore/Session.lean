import ScriptCore.Report
import ScriptCore.Script.Evaluation

/-!
# Sessions

A session runs steps on one machine, one after the other.  A failing step does not end it.
-/

namespace ScriptCore

/-- A step of a session. -/
inductive Step
  /-- Run a program in a new top-level frame. -/
  | run (block : Block)
  /-- Run a program in a kept frame. -/
  | within (handle : String) (block : Block)
  /-- Keep a new frame, inside a new top-level frame or inside a kept one. -/
  | child (handle : String) (parent : Option String)
  /-- Keep a frame no longer. -/
  | drop (handle : String)
  | collect
  | builtins
  | globals
  | describeFrame (handle : String)
  | describe

/-- What a step answers. -/
inductive Answer
  | value (shown : Shown)
  | failure (kind : ErrorKind) (message : String)
  | depth (depth : Nat)
  | dropped (existed : Bool)
  | released (count : Nat)
  | names (names : List String)
  | description (text : String)
  /-- The step makes no sense. -/
  | senseless (reason : String)
deriving Repr, Inhabited

namespace Act

/-- Run a program in a frame and show its value. -/
def showProgram (block : Block) (frame : CellId) : Act Answer :=
  holding (.cell frame) do
    let value ← Evaluator.standard.program block frame
    return .value ((← heap).shown value)

/-- Take a step. -/
def takeStep : Step → Act Answer
  | .run block => do showProgram block (← topFrame)
  | .within name block => do showProgram block (← handle name)
  | .child name parent => do
      let parent ← match parent with
        | some parent => handle parent
        | none => topFrame
      let frame ← childFrame parent
      keepFrame name frame
      return .depth ((← get).depth frame)
  | .drop name =>
      modifyGet fun machine =>
        (.dropped (machine.handle? name).isSome,
          { machine with handles := machine.handles.filter fun handle => handle.1 != name })
  | .collect => do return .released (← collect)
  | .builtins => do return .names (← get).builtinNames
  | .globals => do return .names (← get).globalNames
  | .describeFrame name => do return .description ((← get).describeFrame (← handle name))
  | .describe => do return .description (← get).describe

end Act

namespace Answer

/-- The answer to a step that stopped early. -/
def ofStop : Stop → Answer
  | .error error => failure error.kind error.shownMessage
  | .exhausted => senseless "evaluation is nested too deeply"
  | .malformed reason => senseless reason
  | .fault fault => senseless fault.message

end Answer

namespace Machine

/-- Run an action on a machine whose output is taken; what it answers, what was printed, and
the machine afterwards. -/
def answer (machine : Machine) (action : Act Answer) : (Answer × String) × Machine :=
  match action machine with
  | .ok answer after =>
      ((answer, Text.maskAddresses after.output), { after with output := "" })
  | .error stop after =>
      ((.ofStop stop, Text.maskAddresses after.output), { after with output := "" })

/-- Take steps in order; the answer to each and what it printed. -/
def session : List Step → Machine → List (Answer × String)
  | [], _ => []
  | step :: rest, machine =>
      let (answered, after) := machine.answer (Act.takeStep step)
      answered :: session rest after

/-- The machine after some steps of a session. -/
def after (machine : Machine) (steps : List Step) : Machine :=
  steps.foldl (fun machine step => (machine.answer (Act.takeStep step)).2) machine

end Machine

end ScriptCore
