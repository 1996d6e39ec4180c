/-!
# Failures of the language

A failure is a cause with what is needed to report it.  Its kind and its wording are
functions of the cause, each given once.
-/

namespace ScriptCore

/-- The category a failure is reported under. -/
inductive ErrorKind
  | typeError
  | attributeError
  | nameError
  | indexError
  | keyError
  | valueError
  | notCallable
  | notIterable
deriving Repr, DecidableEq, Inhabited

namespace ErrorKind

/-- The name of a kind in messages. -/
def name : ErrorKind → String
  | typeError => "TypeError"
  | attributeError => "AttributeError"
  | nameError => "NameError"
  | indexError => "IndexError"
  | keyError => "KeyError"
  | valueError => "ValueError"
  | notCallable => "NotCallableError"
  | notIterable => "NotIterableError"

end ErrorKind

/-- The causes of failure. -/
inductive Error
  /-- A program or host raised a failure of its own. -/
  | raised (kind : ErrorKind) (text : String)
  | undefinedName (name : String)
  | notSubscriptable (typeName : String)
  | noItemAssignment (typeName : String)
  | noItemDeletion
  | badIndex (containerType indexType : String)
  | badSliceBound
  | zeroStep
  | sliceAssignment
  | indexOutOfRange
  | assignmentOutOfRange
  /-- No entry for the key with this text. -/
  | missingKey (key : String)
  | unhashable (typeName : String)
  | noLength (typeName : String)
  | notIterable (typeName : String)
  | notCallable (typeName : String)
  | noAttribute (typeName name : String)
  | noClassAttribute (className name : String)
  | readOnlyAttribute (name owner : String)
  | tooManyDefaults (function : String) (defaults params : Nat)
  | tooManyArguments (function : String) (params given : Nat)
  | missingArguments (function : String) (names : List String)
  | wrongArgumentCount (function : String) (expected given : Nat)
  | moreThanOneArgument (function : String) (given : Nat)
  | attributeNameNotString (function typeName : String)
  | secondNotClass
  /-- Host data of a type the language has no counterpart for. -/
  | foreignDatum (typeName : String)
deriving Repr, DecidableEq, Inhabited

namespace Error

/-- The kind a cause is reported under. -/
def kind : Error → ErrorKind
  | raised kind _ => kind
  | undefinedName _ => .nameError
  | notSubscriptable _ => .typeError
  | noItemAssignment _ => .typeError
  | noItemDeletion => .typeError
  | badIndex _ _ => .typeError
  | badSliceBound => .typeError
  | zeroStep => .valueError
  | sliceAssignment => .typeError
  | indexOutOfRange => .indexError
  | assignmentOutOfRange => .indexError
  | missingKey _ => .keyError
  | unhashable _ => .typeError
  | noLength _ => .typeError
  | notIterable _ => .notIterable
  | notCallable _ => .notCallable
  | noAttribute _ _ => .attributeError
  | noClassAttribute _ _ => .attributeError
  | readOnlyAttribute _ _ => .attributeError
  | tooManyDefaults _ _ _ => .typeError
  | tooManyArguments _ _ _ => .typeError
  | missingArguments _ _ => .typeError
  | wrongArgumentCount _ _ _ => .typeError
  | moreThanOneArgument _ _ => .typeError
  | attributeNameNotString _ _ => .typeError
  | secondNotClass => .typeError
  | foreignDatum _ => .typeError

/-- The ending of a noun counted by `count`. -/
def plural (count : Nat) : String :=
  if count = 1 then "" else "s"

/-- The wording of a cause. -/
def message : Error → String
  | raised _ text => text
  | undefinedName name => s!"name '{name}' is not defined"
  | notSubscriptable typeName => s!"'{typeName}' object is not subscriptable"
  | noItemAssignment typeName => s!"'{typeName}' object does not support item assignment"
  | noItemDeletion => "unsupported item deletion"
  | badIndex containerType indexType =>
      s!"{containerType} indices must be integers or slices, not {indexType}"
  | badSliceBound => "slice indices must be integers or None"
  | zeroStep => "slice step cannot be zero"
  | sliceAssignment => "slice assignment is not supported"
  | indexOutOfRange => "index out of range"
  | assignmentOutOfRange => "list assignment index out of range"
  | missingKey key => key
  | unhashable typeName => s!"unhashable type: '{typeName}'"
  | noLength typeName => s!"object of type '{typeName}' has no len()"
  | notIterable typeName => s!"'{typeName}' object is not iterable"
  | notCallable typeName => s!"'{typeName}' object is not callable"
  | noAttribute typeName name => s!"'{typeName}' object has no attribute '{name}'"
  | noClassAttribute className name => s!"type object '{className}' has no attribute '{name}'"
  | readOnlyAttribute name owner => s!"attribute '{name}' of '{owner}' objects is not writable"
  | tooManyDefaults function defaults params =>
      s!"{function}() has {defaults} default values for {params} parameters"
  | tooManyArguments function params given =>
      s!"{function}() takes {params} positional argument{plural params} but {given} " ++
        (if given = 1 then "was" else "were") ++ " given"
  | missingArguments function names =>
      s!"{function}() missing {names.length} required positional argument{plural names.length}: " ++
        ", ".intercalate (names.map fun name => s!"'{name}'")
  | wrongArgumentCount function expected given =>
      s!"{function}() takes exactly {expected} argument{plural expected} ({given} given)"
  | moreThanOneArgument function given =>
      s!"{function}() takes at most 1 argument ({given} given)"
  | attributeNameNotString function typeName =>
      s!"{function}(): attribute name must be string, not '{typeName}'"
  | secondNotClass => "isinstance() arg 2 must be a class"
  | foreignDatum typeName => s!"unsupported host value of type '{typeName}'"

/-- A failure as one line: its kind, then its wording. -/
def text (error : Error) : String :=
  error.kind.name ++ ": " ++ error.message

end Error

end ScriptCore
