import ScriptCore.Call
import ScriptCore.Conversion

/-!
# Operations

What each operation does with its operands in the current frame.  Operands of the wrong
number or variant make a malformed tree, which is no failure of the language.
-/

namespace ScriptCore

/-- Key and value in turn, as pairs. -/
def pairUp : List Value → List (Value × Value)
  | key :: value :: rest => (key, value) :: pairUp rest
  | _ => []

namespace Act

/-- A list of strings. -/
def newNameList (names : List Str) : Act Value :=
  newList (names.map Value.string)

/-- New strings with the texts of others, none of them in the pool. -/
def copies : List Str → Act (List Str)
  | [] => return []
  | string :: rest => do
      let copy ← newStr string.text
      return copy :: (← copies rest)

/-- A list of the bound names in increasing order, each a new string. -/
def newBoundNames (names : Names) : Act Value := do
  newNameList (← copies names.sorted)

/-- The frame kept under a name. -/
def handle (name : String) : Act CellId := do
  match (← get).handle? name with
  | some frame => return frame
  | none => malformed s!"no frame is kept as {name}"

/-- Keep a frame under a name, in place of the one kept there before. -/
def keepFrame (name : String) (frame : CellId) : Act Unit :=
  modify fun machine =>
    { machine with
      handles := (name, frame) :: machine.handles.filter fun handle => handle.1 != name }

/-- Pool names in order. -/
def internAll : List String → Act (List Str)
  | [] => return []
  | name :: rest => do
      let string ← intern name
      return string :: (← internAll rest)

/-- Whether the list watched under a name still exists. -/
def isAlive (name : String) : Act Bool := do
  modify Machine.settle
  let machine ← get
  return (machine.watched.find? fun watch => watch.1 == name).any fun watch =>
    machine.heap.contains watch.2

/-- Look through the retained frames, and give the number of frames cleared. -/
def collect : Act Nat :=
  modifyGet Machine.collect

/-- The superclass an operand means: a class, or none. -/
def superclassOf : Value → Act (Option CellId)
  | .classObject cell => return some cell
  | .nothing => return none
  | _ => malformed "the superclass is no class"

/-- The whole number an operand counts as in a sum. -/
def summand : Value → Int64
  | .int value => value
  | _ => 0

/-- The operands do not fit the operation. -/
def misfit : Act α :=
  malformed "these operands do not fit the operation"

/-- Do something that takes no operand. -/
def nullary (operands : List Value) (action : Act Value) : Act Value :=
  match operands with
  | [] => action
  | _ => misfit

/-- Do something with one operand. -/
def unary (operands : List Value) (action : Value → Act Value) : Act Value :=
  match operands with
  | [value] => action value
  | _ => misfit

/-- Do something with two operands. -/
def binary (operands : List Value) (action : Value → Value → Act Value) : Act Value :=
  match operands with
  | [first, second] => action first second
  | _ => misfit

/-- Do something with three operands. -/
def ternary (operands : List Value) (action : Value → Value → Value → Act Value) : Act Value :=
  match operands with
  | [first, second, third] => action first second third
  | _ => misfit

/-- A list of the parameters of a function. -/
def newParamList (heap : Heap) : Value → Act Value
  | .function code =>
      match heap.function? code with
      | some function => newNameList function.params
      | none => malformed "no function in this cell"
  | _ => misfit

/-- A new object of a class, without a call of its constructor. -/
def makeObject : Value → Act Value
  | .classObject cls => do return .object (← newObject cls)
  | _ => misfit

/-- A method of an object and a function. -/
def bindMethod : Value → Value → Act Value
  | .object receiver, .function code => newMethod receiver code
  | _, _ => misfit

/-- What a class or its ancestors give under a name, or nothing. -/
def findClassAttr (heap : Heap) (name : String) : Value → Act Value
  | .classObject cls => return (heap.findAttr cls name).getD .nothing
  | _ => misfit

/-- Whether one class is another one or descends from it. -/
def testSubclass (heap : Heap) : Value → Value → Act Value
  | .classObject cls, .classObject other => return .bool (heap.isSubclass cls other)
  | _, _ => misfit

/-- A list of the names of a class and its ancestors. -/
def newAncestorList (heap : Heap) : Value → Act Value
  | .classObject cls =>
      newNameList ((heap.ancestors cls).filterMap fun ancestor =>
        (heap.class? ancestor).map ClassCell.name)
  | _ => misfit

/-- A list of the names of the own attributes of a class or an object. -/
def newOwnNames (heap : Heap) : Value → Act Value
  | .classObject cls => newBoundNames (heap.classAttributes cls)
  | .object object => newBoundNames (heap.objectAttributes object)
  | _ => misfit

/-- Watch a list under a name, in place of the one watched there before. -/
def watch (name : String) : Value → Act Value
  | .list cell => do
      modify fun machine =>
        { machine with
          watched := (name, cell) :: machine.watched.filter fun watch => watch.1 != name }
      return .list cell
  | _ => misfit

/-- Perform an operation on operands in a frame. -/
def perform (frame : CellId) (operation : Operation) (operands : List Value) : Act Value := do
  let machine ← get
  match operation with
  | .literal datum => nullary operands (convert datum)
  | .plain text => nullary operands (newString text)
  | .list => newList operands
  | .tuple => newTuple operands
  | .set => newSet operands
  | .dict => newDict (pairUp operands)
  | .name name => nullary operands (ofExcept (machine.lookup frame name))
  | .localName name =>
      nullary operands do return ((machine.localsOf frame).find? name).getD .nothing
  | .define name =>
      unary operands fun value => do
        define frame (← intern name) value
        return .nothing
  | .defineGlobal name =>
      unary operands fun value => do
        let name ← intern name
        modify fun machine => { machine with globals := machine.globals.insert name value }
        return .nothing
  | .remove name =>
      nullary operands do
        modify fun machine => machine.removeLocal frame name
        return ((machine.localsOf frame).find? name).getD .nothing
  | .locals => nullary operands (newBoundNames (machine.localsOf frame))
  | .depth => nullary operands do return .int (.ofNat (machine.depth frame))
  | .isTop => nullary operands do return .bool (machine.heap.parent? frame).isNone
  | .builtin name => nullary operands do return (machine.builtin? name).elim .nothing .builtin
  | .keepFrame name =>
      nullary operands do
        keepFrame name frame
        return .nothing
  | .frameIs name => nullary operands do return .bool ((machine.handle? name).any (· == frame))
  | .parentIs name =>
      nullary operands do
        return .bool ((machine.handle? name).any fun kept =>
          machine.heap.parent? frame == some kept)
  | .native name native =>
      nullary operands do
        let name ← intern name
        return .builtin { name, native, serial := ← fresh }
  | .params => unary operands (newParamList machine.heap)
  | .makeObject => unary operands makeObject
  | .bind => binary operands bindMethod
  | .findAttr name => unary operands (findClassAttr machine.heap name)
  | .isSubclass => binary operands (testSubclass machine.heap)
  | .ancestors => unary operands (newAncestorList machine.heap)
  | .ownNames => unary operands (newOwnNames machine.heap)
  | .getAttr name => unary operands fun target => getAttr target name
  | .setAttr name =>
      binary operands fun target value => do
        setAttr target (← intern name) value
        return .nothing
  | .delAttr name => unary operands fun target => delAttr target name
  | .getItem => binary operands getItem
  | .setItem =>
      ternary operands fun container index value => do
        setItem container index value
        return .nothing
  | .delItem => binary operands deleteItem
  | .truth => unary operands fun value => return .bool (machine.heap.truth value)
  | .length =>
      unary operands fun value => do
        return .int (.ofNat (← ofExcept (machine.heap.length value)))
  | .typeName => unary operands fun value => newString (machine.heap.typeName value)
  | .isCallable => unary operands fun value => return .bool value.isCallable
  | .repr => unary operands fun value => newString (machine.heap.repr .canonical value)
  | .iterate => unary operands fun value => do newList (← elements value)
  | .key => unary operands fun value => do return (← ofExcept (Key.ofValue value)).value
  | .equal => binary operands fun left right => return .bool (left.equal right)
  | .same => binary operands fun left right => return (left.same? right).elim .nothing .bool
  | .add => binary operands fun left right => return .int (summand left + summand right)
  | .raise kind text => nullary operands (fail (.raised kind text))
  | .watch name => unary operands (watch name)
  | .alive name => nullary operands do return .bool (← isAlive name)
  | .collect => nullary operands do return .int (.ofNat (← collect))

end Act

end ScriptCore
