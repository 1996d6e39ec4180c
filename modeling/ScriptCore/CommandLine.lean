import ScriptCore.Json.Basic
import ScriptCore.Machine.Build
import ScriptCore.Script.Evaluation

/-!
# The command line

The first argument that is no option names a builtin, the others are JSON documents to call
it with.  The result is printed unless it is nothing; after a deletion the container is
printed too.  Without a builtin, or with `--list`, the builtins are listed.  How documents
are read is up to the program: `parse?` reads a text that is one document, and no other.
-/

namespace ScriptCore

/-- The options and positional arguments of a command line. -/
structure CommandLine where
  log : Option String := none
  list : Bool := false
  positionals : List String := []
deriving Repr, DecidableEq, Inhabited

namespace CommandLine

/-- Why a command line cannot be carried out. -/
inductive Failure
  /-- The arguments make no sense. -/
  | usage
  | unknownBuiltin (name : String)
  /-- The argument at this place, counted from zero, is no JSON document. -/
  | badArgument (index : Nat)
  | language (error : Error)
  /-- The machine stopped without a failure of the language. -/
  | halted (stop : Stop)
deriving Repr, Inhabited

/-- The wording of a failure. -/
def Failure.message : Failure → String
  | usage => ""
  | unknownBuiltin name => s!"no builtin named '{name}'; run with --list to see them all"
  | badArgument index => s!"argument {index} is not valid JSON"
  | language error => error.text
  | halted _ => "the machine stopped"

/-- Whether an argument is written like an option. -/
def looksLikeOption (argument : String) : Bool :=
  argument.startsWith "-" && argument != "-"

/-- The value of an option written as `name=value`. -/
def attached? (name argument : String) : Option String :=
  let start := (name ++ "=").toList
  if start.isPrefixOf argument.toList then some (String.ofList (argument.toList.drop start.length))
  else none

/-- Read the arguments after what is read already.  Each option may stand once; after `--`
all arguments are positional. -/
def readFrom (line : CommandLine) : List String → Option CommandLine
  | [] => some line
  | "--" :: rest => some { line with positionals := line.positionals ++ rest }
  | "--list" :: rest => if line.list then none else readFrom { line with list := true } rest
  | "--log" :: value :: rest =>
      if line.log.isSome || looksLikeOption value then none
      else readFrom { line with log := some value } rest
  | argument :: rest =>
      match attached? "--log" argument with
      | some value =>
          if line.log.isSome then none else readFrom { line with log := some value } rest
      | none =>
          if looksLikeOption argument then none
          else readFrom { line with positionals := line.positionals ++ [argument] } rest

/-- Read the arguments of a command line. -/
def read? (arguments : List String) : Option CommandLine :=
  readFrom {} arguments

/-- The name of the builtin after which the container is printed. -/
def deleting : String := Standard.delitem.name

section Documents

variable (parse? : String → Option Json)

/-- The value of an argument of a builtin; the index of a deletion may be a slice. -/
def readArgument (name : String) (index : Nat) (source : String) : Except Failure Datum :=
  match parse? source with
  | none => .error (.badArgument index)
  | some json => .ok (if name == deleting && index == 1 then json.toIndex else json.toDatum)

/-- Run an action of the language as a part of a command. -/
def run (action : Act α) : EStateM Failure Machine α := fun machine =>
  match action machine with
  | .ok value after => .ok value after
  | .error (.error error) after => .error (.language error) after
  | .error stop after => .error (.halted stop) after

/-- Read and convert the arguments of a builtin in order. -/
def readArguments (name : String) (index : Nat) :
    List String → EStateM Failure Machine (List Value)
  | [] => return []
  | source :: rest => do
      match readArgument parse? name index source with
      | .error failure => throw failure
      | .ok datum =>
          let value ← run (Act.convert datum)
          return value :: (← readArguments name (index + 1) rest)

/-- Call a builtin, and give the lines to print: the result unless it is nothing, and the
container after a deletion. -/
def invoke (style : Style) (name : String) (sources : List String) :
    EStateM Failure Machine (List String) := do
  match (← get).builtin? name with
  | none => throw (.unknownBuiltin name)
  | some builtin =>
      let arguments ← readArguments parse? name 0 sources
      let result ← run do
        let frame ← Act.topFrame
        Act.call Evaluator.standard frame (.builtin builtin) arguments
      let heap := (← get).heap
      let container := if name == deleting then arguments.head?.toList else []
      let shown := match result with
        | .nothing => container
        | result => result :: container
      return shown.map (heap.repr style)

/-- Each line with its end. -/
def unlines (lines : List String) : String :=
  String.join (lines.map (· ++ "\n"))

/-- Carry out a command: what it prints. -/
def execute (style : Style) (line : CommandLine) : Except Failure String :=
  let machine := Machine.standard
  match line.list, line.positionals with
  | false, name :: sources =>
      match invoke parse? style name sources machine with
      | .ok lines after => .ok (after.output ++ unlines lines)
      | .error failure _ => .error failure
  | _, _ => .ok (unlines machine.builtinNames)

/-- Carry out the command that arguments describe: what it prints. -/
def respond (style : Style) (arguments : List String) : Except Failure String :=
  match read? arguments with
  | none => .error .usage
  | some line => execute parse? style line

end Documents

end CommandLine

end ScriptCore
