import ScriptCore.Error

/-!
# Stopping early

An action may stop before its end.  A failure of the language can be handled by the program;
nothing else that stops an action can.
-/

namespace ScriptCore

/-- What has no answer on words and sequences.  A program that comes to it is broken off. -/
inductive Fault
  /-- A sum that is no word. -/
  | overflow
  /-- A lower limit above the upper one. -/
  | crossedLimits
  /-- A place or a range that is not inside the sequence. -/
  | outside
deriving Repr, DecidableEq, Inhabited

/-- The wording of a fault. -/
def Fault.message : Fault → String
  | overflow => "the sum is no word"
  | crossedLimits => "the lower limit is above the upper one"
  | outside => "not inside the sequence"

/-- Why an action stopped before its end. -/
inductive Stop
  /-- A failure of the language. -/
  | error (error : Error)
  /-- The bound on the depth of evaluation was reached. -/
  | exhausted
  /-- The program tree makes no sense: an operation got operands it is not made for. -/
  | malformed (reason : String)
  /-- Something was asked that has no answer. -/
  | fault (fault : Fault)
deriving Repr, Inhabited

/-- The value there is; a fault if there is none. -/
def Fault.unless (fault : Fault) : Option α → Except Stop α
  | some value => .ok value
  | none => .error (.fault fault)

end ScriptCore
