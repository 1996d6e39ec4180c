import ScriptCore.Json.Number
import ScriptCore.Text.Str

/-!
# Reading JSON documents

Strict JSON: no trailing commas, no raw control characters in strings, no lone surrogates,
at most 127 arrays and objects inside each other.  Blanks may surround any token.  The
members of an object are kept in the order of their names; of several members of one name
the last counts.
-/

namespace ScriptCore.Json

/-- Whether a character may stand between tokens. -/
def isBlank (char : Char) : Bool :=
  char = ' ' || char = '\n' || char = '\t' || char = '\r'

/-- What follows the blanks at the beginning of a text. -/
def skipBlanks (text : List Char) : List Char :=
  text.dropWhile isBlank

/-- The value of a hexadecimal digit. -/
def hexValue? (char : Char) : Option Nat :=
  if '0' ≤ char ∧ char ≤ '9' then some (char.toNat - '0'.toNat)
  else if 'a' ≤ char ∧ char ≤ 'f' then some (char.toNat - 'a'.toNat + 10)
  else if 'A' ≤ char ∧ char ≤ 'F' then some (char.toNat - 'A'.toNat + 10)
  else none

/-- The number four hexadecimal digits stand for. -/
def hexUnit? (first second third fourth : Char) : Option Nat := do
  let first ← hexValue? first
  let second ← hexValue? second
  let third ← hexValue? third
  let fourth ← hexValue? fourth
  return ((first * 16 + second) * 16 + third) * 16 + fourth

/-- The character a letter after a backslash stands for. -/
def escape? : Char → Option Char
  | '"' => some '"'
  | '\\' => some '\\'
  | '/' => some '/'
  | 'b' => some '\x08'
  | 'f' => some '\x0c'
  | 'n' => some '\n'
  | 'r' => some '\r'
  | 't' => some '\t'
  | _ => none

/-- Whether a unit is the first of a surrogate pair. -/
def isLeading (unit : Nat) : Bool :=
  0xd800 ≤ unit && unit ≤ 0xdbff

/-- Whether a unit is the second of a surrogate pair. -/
def isTrailing (unit : Nat) : Bool :=
  0xdc00 ≤ unit && unit ≤ 0xdfff

/-- Read the characters of a string up to its closing quote. -/
def readChars : List Char → Option (List Char × List Char)
  | [] => none
  | '"' :: rest => some ([], rest)
  | '\\' :: 'u' :: first :: second :: third :: fourth :: rest => do
      let unit ← hexUnit? first second third fourth
      if isTrailing unit then none
      else if isLeading unit then
        match rest with
        | '\\' :: 'u' :: fifth :: sixth :: seventh :: eighth :: rest =>
            let trailing ← hexUnit? fifth sixth seventh eighth
            if isTrailing trailing then
              let (chars, after) ← readChars rest
              let number := 0x10000 + (unit - 0xd800) * 0x400 + (trailing - 0xdc00)
              return (Char.ofNat number :: chars, after)
            else none
        | _ => none
      else
        let (chars, after) ← readChars rest
        return (Char.ofNat unit :: chars, after)
  | '\\' :: letter :: rest => do
      let char ← escape? letter
      let (chars, after) ← readChars rest
      return (char :: chars, after)
  | char :: rest =>
      if char = '\\' ∨ char.toNat < 0x20 then none
      else do
        let (chars, after) ← readChars rest
        return (char :: chars, after)

/-- Read a word that stands for a document. -/
def readWord (word : String) (json : Json) (text : List Char) : Option (Json × List Char) :=
  if word.toList.isPrefixOf text then some (json, text.drop word.length) else none

/-- Put a member where it belongs in the order of names, in place of an earlier one of its name. -/
def putMember : List (String × Json) → String → Json → List (String × Json)
  | [], name, value => [(name, value)]
  | (other, old) :: rest, name, value =>
      match Text.compare name other with
      | .lt => (name, value) :: (other, old) :: rest
      | .eq => (name, value) :: rest
      | .gt => (other, old) :: putMember rest name value

mutual

/-- Read a document that begins at once; `depth` arrays and objects may still be entered. -/
def readValue : Nat → Nat → List Char → Option (Json × List Char)
  | 0, _, _ => none
  | fuel + 1, depth, input =>
      match input with
      | '"' :: rest => do
          let (chars, rest) ← readChars rest
          return (.text (String.ofList chars), rest)
      | '[' :: rest =>
          if depth = 0 then none
          else
            match skipBlanks rest with
            | ']' :: rest => some (.array [], rest)
            | rest => do
                let (items, rest) ← readItems fuel (depth - 1) rest
                return (.array items, rest)
      | '\x7b' :: rest =>
          if depth = 0 then none
          else
            match skipBlanks rest with
            | '\x7d' :: rest => some (.object [], rest)
            | rest => do
                let (members, rest) ← readMembers fuel (depth - 1) [] rest
                return (.object members, rest)
      | 'n' :: _ => readWord "null" .null input
      | 't' :: _ => readWord "true" (.bool true) input
      | 'f' :: _ => readWord "false" (.bool false) input
      | _ => do
          let (value, rest) ← readNumber input
          return (.number value, rest)

/-- Read the items of an array up to its end. -/
def readItems : Nat → Nat → List Char → Option (List Json × List Char)
  | 0, _, _ => none
  | fuel + 1, depth, input => do
      let (item, rest) ← readValue fuel depth input
      match skipBlanks rest with
      | ',' :: rest => do
          let (items, rest) ← readItems fuel depth (skipBlanks rest)
          return (item :: items, rest)
      | ']' :: rest => return ([item], rest)
      | _ => none

/-- Read the members of an object up to its end, after those in `members`. -/
def readMembers : Nat → Nat → List (String × Json) → List Char →
    Option (List (String × Json) × List Char)
  | 0, _, _, _ => none
  | fuel + 1, depth, members, input => do
      let '"' :: rest := input | none
      let (name, rest) ← readChars rest
      let ':' :: rest := skipBlanks rest | none
      let (value, rest) ← readValue fuel depth (skipBlanks rest)
      let members := putMember members (String.ofList name) value
      match skipBlanks rest with
      | ',' :: rest => readMembers fuel depth members (skipBlanks rest)
      | '\x7d' :: rest => return (members, rest)
      | _ => none

end

/-- How many arrays and objects may stand inside each other. -/
def depthLimit : Nat := 127

/-- Read a text that is one document and nothing else. -/
def parse? (text : String) : Option Json := do
  let chars := text.toList
  let (json, rest) ← readValue (2 * chars.length + 2) depthLimit (skipBlanks chars)
  if (skipBlanks rest).isEmpty then some json else none

end ScriptCore.Json
