import ScriptCore.Machine.Basic

/-!
# Classes, objects and attributes

Classes have at most one superclass, fixed when the class is made.  An attribute of an
object is looked up among its own attributes, then along the classes from its own upward;
a function found on a class comes back bound to the object.  Four names are reserved: they
are computed, and never stored.
-/

namespace ScriptCore

namespace Attribute

/-- The name that gives the class of an object. -/
def className : String := "__class__"

/-- The name that gives the own attributes of a class or object. -/
def dictName : String := "__dict__"

/-- The name that gives the name of a class or function. -/
def nameName : String := "__name__"

/-- The name that gives the superclass of a class. -/
def superclassName : String := "__superclass__"

/-- The name that gives the receiver of a bound method. -/
def selfName : String := "__self__"

/-- The name that gives the function of a bound method. -/
def functionName : String := "__func__"

/-- The name of the function run on a new object. -/
def initName : String := "__init__"

/-- The names that are computed and never stored. -/
def reserved : List String :=
  [className, dictName, nameName, superclassName]

/-- Whether a name is computed and never stored. -/
def isReserved (name : String) : Bool :=
  reserved.contains name

end Attribute

namespace Heap

/-- A class's own attributes. -/
def classAttributes (heap : Heap) (id : CellId) : Names :=
  match heap.class? id with
  | some content => content.attributes
  | none => []

/-- An object's own attributes. -/
def objectAttributes (heap : Heap) (id : CellId) : Names :=
  match heap.object? id with
  | some content => content.attributes
  | none => []

/-- The value of a name in the nearest class that has it, from `id` upward. -/
def findAttr (heap : Heap) (id : CellId) (name : String) : Option Value :=
  (heap.ancestors id).findSome? fun ancestor => (heap.classAttributes ancestor).find? name

/-- Whether a class is another or inherits from it. -/
def isSubclass (heap : Heap) (id other : CellId) : Bool :=
  (heap.ancestors id).contains other

/-- Whether a value is an object of a class or of one that inherits from it. -/
def isInstance (heap : Heap) (value : Value) (cls : CellId) : Bool :=
  match value with
  | .object cell => (heap.object? cell).any fun content => heap.isSubclass content.classCell cls
  | _ => false

/-- Refuse to write or delete a reserved name of something `owner` describes. -/
def refuseReserved (name owner : String) : Except Error Unit :=
  if Attribute.isReserved name then .error (.readOnlyAttribute name owner) else .ok ()

/-- Write an attribute of a class or object. -/
def setAttr (heap : Heap) (target : Value) (name : Str) (value : Value) : Except Error Heap :=
  match target with
  | .object cell => do
      refuseReserved name.text (heap.objectClassName cell)
      match heap.object? cell with
      | some content =>
          return heap.set cell (.object
            { content with attributes := content.attributes.insert name value })
      | none => return heap
  | .classObject cell => do
      refuseReserved name.text "type"
      match heap.class? cell with
      | some content =>
          return heap.set cell (.classObject
            { content with attributes := content.attributes.insert name value })
      | none => return heap
  | _ => .error (.noAttribute (heap.typeName target) name.text)

/-- Remove an attribute a class or object has itself, and give its value. -/
def delAttr (heap : Heap) (target : Value) (name : String) : Except Error (Value × Heap) :=
  match target with
  | .object cell => do
      refuseReserved name (heap.objectClassName cell)
      match heap.object? cell, (heap.objectAttributes cell).find? name with
      | some content, some value =>
          return (value, heap.set cell (.object
            { content with attributes := content.attributes.erase name }))
      | _, _ => .error (.noAttribute (heap.objectClassName cell) name)
  | .classObject cell => do
      refuseReserved name "type"
      match heap.class? cell, (heap.classAttributes cell).find? name with
      | some content, some value =>
          return (value, heap.set cell (.classObject
            { content with attributes := content.attributes.erase name }))
      | _, _ => .error (.noClassAttribute (heap.className cell) name)
  | _ => .error (.noAttribute (heap.typeName target) name)

end Heap

namespace Act

/-- A new dict with the given bindings, their names as keys. -/
def newNamesDict (names : Names) : Act Value := do
  return .dict (← alloc (.dict (names.map fun binding => (Key.ofStr binding.1, binding.2))))

/-- A new class.  Its attributes may bind no reserved name. -/
def newClass (name : Str) (superclass : Option CellId) (attributes : Names) : Act Value := do
  match (attributes.map fun binding => binding.1.text).find? Attribute.isReserved with
  | some reserved => fail (.readOnlyAttribute reserved "type")
  | none => return .classObject (← alloc (.classObject { name, superclass, attributes }))

/-- A new object without attributes. -/
def newObject (cls : CellId) : Act CellId :=
  alloc (.object { classCell := cls, attributes := [] })

/-- Bind a function to a receiver. -/
def newMethod (receiver code : CellId) : Act Value := do
  return .method (← alloc (.method receiver code)) receiver code

/-- Read an attribute of a class. -/
def getClassAttr (cell : CellId) (name : String) : Act Value := do
  let heap ← heap
  match heap.class? cell with
  | none => fail (.noClassAttribute (heap.className cell) name)
  | some content =>
      if name = Attribute.nameName then return .string content.name
      else if name = Attribute.superclassName then
        return (content.superclass.map Value.classObject).getD .nothing
      else if name = Attribute.dictName then newNamesDict content.attributes
      else if name = Attribute.className then
        fail (.noClassAttribute content.name.text name)
      else
        match heap.findAttr cell name with
        | some value => return value
        | none => fail (.noClassAttribute content.name.text name)

/-- Read an attribute of an object. -/
def getObjectAttr (cell : CellId) (name : String) : Act Value := do
  let heap ← heap
  match heap.object? cell with
  | none => fail (.noAttribute (heap.objectClassName cell) name)
  | some content =>
      if name = Attribute.className then return .classObject content.classCell
      else if name = Attribute.dictName then newNamesDict content.attributes
      else
        match content.attributes.find? name with
        | some value => return value
        | none =>
            match heap.findAttr content.classCell name with
            | some (.function code) => newMethod cell code
            | some value => return value
            | none => fail (.noAttribute (heap.objectClassName cell) name)

/-- The name of a function as a value. -/
def functionNameValue (heap : Heap) (code : CellId) : Value :=
  match heap.function? code with
  | some content => .string content.name
  | none => .nothing

/-- Read an attribute of any value. -/
def getAttr (target : Value) (name : String) : Act Value := do
  let heap ← heap
  let refuse : Act Value := fail (.noAttribute (heap.typeName target) name)
  match target with
  | .object cell => getObjectAttr cell name
  | .classObject cell => getClassAttr cell name
  | .function cell =>
      if name = Attribute.nameName then return functionNameValue heap cell else refuse
  | .builtin builtin =>
      if name = Attribute.nameName then return .string builtin.name else refuse
  | .method _ receiver code =>
      if name = Attribute.nameName then return functionNameValue heap code
      else if name = Attribute.selfName then return .object receiver
      else if name = Attribute.functionName then return .function code
      else refuse
  | _ => refuse

/-- Write an attribute of any value. -/
def setAttr (target : Value) (name : Str) (value : Value) : Act Unit := do
  let updated ← ofExcept ((← heap).setAttr target name value)
  modify fun machine => { machine with heap := updated }

/-- Remove an attribute of any value and give what it was. -/
def delAttr (target : Value) (name : String) : Act Value := do
  let (value, updated) ← ofExcept ((← heap).delAttr target name)
  modify fun machine => { machine with heap := updated }
  return value

end Act

end ScriptCore
