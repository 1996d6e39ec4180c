import ScriptCore.Attribute
import ScriptCore.Item.Access
import ScriptCore.Iteration

/-!
# The standard builtin functions

Each checks its own arguments: first their number, then their types.
-/

namespace ScriptCore

namespace Act

/-- Refuse a wrong number of arguments. -/
def wrongCount (function : Standard) (expected : Nat) (arguments : List Value) : Act α :=
  fail (.wrongArgumentCount function.name expected arguments.length)

/-- The items of the one argument, or none without an argument. -/
def elementsOf (function : Standard) : List Value → Act (List Value)
  | [] => return []
  | [value] => elements value
  | arguments => fail (.moreThanOneArgument function.name arguments.length)

/-- Read an argument as the name of an attribute. -/
def attributeName (function : Standard) : Value → Act Str
  | .string name => return name
  | value => do fail (.attributeNameNotString function.name ((← heap).typeName value))

/-- Read an attribute, and give a default if there is none. -/
def getAttrOr (target : Value) (name : String) (default : Value) : Act Value :=
  handling (getAttr target name) fun error =>
    if error.kind = .attributeError then pure default else fail error

/-- Whether an attribute can be read. -/
def hasAttr (target : Value) (name : String) : Act Bool :=
  handling (do let _ ← getAttr target name; return true) fun error =>
    if error.kind = .attributeError then pure false else fail error

/-- Take exactly one argument. -/
def exactlyOne (function : Standard) (arguments : List Value) (action : Value → Act Value) :
    Act Value :=
  match arguments with
  | [value] => action value
  | _ => wrongCount function 1 arguments

/-- Take exactly two arguments. -/
def exactlyTwo (function : Standard) (arguments : List Value)
    (action : Value → Value → Act Value) : Act Value :=
  match arguments with
  | [first, second] => action first second
  | _ => wrongCount function 2 arguments

/-- Take exactly three arguments. -/
def exactlyThree (function : Standard) (arguments : List Value)
    (action : Value → Value → Value → Act Value) : Act Value :=
  match arguments with
  | [first, second, third] => action first second third
  | _ => wrongCount function 3 arguments

section Arguments

variable {function : Standard} {arguments : List Value} {motive : Act Value → Prop}
  (refused : ∀ error, motive (fail error))

include refused

theorem exactlyOne_cases {action : Value → Act Value}
    (taken : ∀ value, arguments = [value] → motive (action value)) :
    motive (exactlyOne function arguments action) := by
  unfold exactlyOne
  split
  · exact taken _ rfl
  · exact refused _

theorem exactlyTwo_cases {action : Value → Value → Act Value}
    (taken : ∀ first second, arguments = [first, second] → motive (action first second)) :
    motive (exactlyTwo function arguments action) := by
  unfold exactlyTwo
  split
  · exact taken _ _ rfl
  · exact refused _

theorem exactlyThree_cases {action : Value → Value → Value → Act Value}
    (taken : ∀ first second third, arguments = [first, second, third] →
      motive (action first second third)) :
    motive (exactlyThree function arguments action) := by
  unfold exactlyThree
  split
  · exact taken _ _ _ rfl
  · exact refused _

end Arguments

/-- The text of a value; that of a text is the text itself, and not a copy. -/
def textOf : Value → Act Value
  | .string text => return .string text
  | value => do newString ((← heap).display .plain value)

/-- The text of the one argument, or the empty text without an argument. -/
def makeText (function : Standard) : List Value → Act Value
  | [] => newString ""
  | [value] => textOf value
  | arguments => fail (.moreThanOneArgument function.name arguments.length)

/-- Whether a value is an instance of a class. -/
def testInstance (value : Value) : Value → Act Value
  | .classObject cls => do return .bool ((← heap).isInstance value cls)
  | _ => fail .secondNotClass

/-- Read an attribute, with a default as an argument that may be left out. -/
def readAttr (function : Standard) (arguments : List Value) : Act Value :=
  match arguments with
  | [target, name, default] => do
      let name ← attributeName function name
      getAttrOr target name.text default
  | _ => exactlyTwo function arguments fun target name => do
      let name ← attributeName function name
      getAttr target name.text

/-- Run a standard builtin. -/
def runStandard (function : Standard) (arguments : List Value) : Act Value :=
  match function with
  | .len => exactlyOne function arguments fun value => do
      return .int (.ofNat (← ofExcept ((← heap).length value)))
  | .print => do
      let heap ← heap
      print (" ".intercalate (arguments.map (heap.display .plain)) ++ "\n")
      return .nothing
  | .repr => exactlyOne function arguments fun value => do
      newString ((← heap).repr .plain value)
  | .str => makeText function arguments
  | .list => do newList (← elementsOf function arguments)
  | .tuple => do newTuple (← elementsOf function arguments)
  | .set => do newSet (← elementsOf function arguments)
  | .isinstance => exactlyTwo function arguments testInstance
  | .getattr => readAttr function arguments
  | .setattr => exactlyThree function arguments fun target name value => do
      let name ← attributeName function name
      setAttr target name value
      return .nothing
  | .hasattr => exactlyTwo function arguments fun target name => do
      let name ← attributeName function name
      return .bool (← hasAttr target name.text)
  | .delattr => exactlyTwo function arguments fun target name => do
      let name ← attributeName function name
      let _ ← delAttr target name.text
      return .nothing
  | .delitem => exactlyTwo function arguments deleteItem

end Act

end ScriptCore
