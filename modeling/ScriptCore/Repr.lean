import ScriptCore.Heap.Basic
import ScriptCore.Number.Layout
import ScriptCore.Text.Address
import ScriptCore.Text.Quoted

/-!
# The printed form of values

Strings are quoted, a tuple of one item has a comma after it, and the empty set is
`set()`.  Lists and dicts may hold themselves; one that is already being printed further
out is cut to `[...]` or `{...}`.  Tuples and sets cannot close a cycle on their own, so
only lists and dicts are watched.

A style fixes what a printed form leaves open: whether the texts of values without parts
show addresses, and in which order the entries of dicts and sets come.
-/

namespace ScriptCore

/-- The choices left open by the printed form. -/
structure Style where
  /-- What is done to the text of a value without parts. -/
  leaf : List Char → List Char
  /-- The order in which entries are written. -/
  arrange : List (List Char) → List (List Char)

namespace Style

/-- Texts as they are, entries in the order of the container. -/
def plain : Style where
  leaf := id
  arrange := id

/-- A form that depends on neither addresses nor entry order: every address is replaced,
entries are sorted by the text that results. -/
def canonical : Style where
  leaf := Text.maskChars
  arrange texts := (Text.sort (texts.map String.ofList)).map String.toList

end Style

namespace Text

/-- Texts one after the other, with a comma and a blank between two. -/
def commaSeparated : List (List Char) → List Char
  | [] => []
  | [text] => text
  | text :: rest => text ++ ',' :: ' ' :: commaSeparated rest

/-- A text between two others. -/
def enclosed (opening closing : String) (text : List Char) : List Char :=
  opening.toList ++ text ++ closing.toList

end Text

open Text

namespace Heap

/-- The printed form of an object: its class and its address in hexadecimal. -/
def objectText (heap : Heap) (cell : CellId) : List Char :=
  enclosed "<" ">" ((heap.objectClassName cell).toList ++ addressMark ++ Nat.toDigits 16 cell)

/-- The printed form of a bound method. -/
def methodText (heap : Heap) (receiver code : CellId) : List Char :=
  enclosed "<bound method " ">"
    ((heap.objectClassName receiver).toList ++ '.' :: (heap.functionName code).toList ++
      " of ".toList ++ heap.objectText receiver)

/-- The printed form of a value without parts; that of a container is nothing. -/
def leafText (heap : Heap) : Value → List Char
  | .nothing => "None".toList
  | .bool value => (if value then "True" else "False").toList
  | .int value => (toString value.toInt).toList
  | .double value => value.text.toList
  | .string value => quotedChars value.text.toList
  | .classObject cell => enclosed "<class '" "'>" (heap.className cell).toList
  | .object cell => heap.objectText cell
  | .function cell => enclosed "<function " ">" (heap.functionName cell).toList
  | .method _ receiver code => heap.methodText receiver code
  | .builtin builtin => enclosed "<built-in function " ">" builtin.name.text.toList
  | .tuple _ | .list _ | .dict _ | .set _ => []

/-- The printed form of a value inside the containers `active`; `fuel` bounds the depth of
nesting. -/
def render (heap : Heap) (style : Style) : Nat → List CellId → Value → List Char
  | 0, _, _ => []
  | fuel + 1, active, value =>
      match value with
      | .tuple cell =>
          match heap.tupleItems cell with
          | [item] => enclosed "(" ",)" (render heap style fuel active item)
          | items => enclosed "(" ")" (commaSeparated (items.map (render heap style fuel active)))
      | .list cell =>
          if active.contains cell then "[...]".toList
          else
            let items := (heap.listItems cell).map (render heap style fuel (cell :: active))
            enclosed "[" "]" (commaSeparated items)
      | .dict cell =>
          if active.contains cell then "\x7b...\x7d".toList
          else
            let entry (pair : Key × Value) :=
              render heap style fuel (cell :: active) pair.1.value ++ ':' :: ' ' ::
                render heap style fuel (cell :: active) pair.2
            let entries := (heap.dictEntries cell).map entry
            enclosed "\x7b" "\x7d" (commaSeparated (style.arrange entries))
      | .set cell =>
          match heap.setMembers cell with
          | [] => "set()".toList
          | members =>
              let texts := members.map fun member => render heap style fuel active member.value
              enclosed "\x7b" "\x7d" (commaSeparated (style.arrange texts))
      | value => style.leaf (heap.leafText value)

/-- A depth no printed path exceeds: each list and dict is on it at most once, and between
two of them no tuple or set repeats. -/
def renderDepth (heap : Heap) : Nat :=
  (heap.size + 1) * (heap.size + 1) + 1

/-- The printed form of a value, strings quoted. -/
def repr (heap : Heap) (style : Style) (value : Value) : String :=
  String.ofList (heap.render style heap.renderDepth [] value)

/-- The printed form of a value, except that a string is its own text. -/
def display (heap : Heap) (style : Style) : Value → String
  | .string value => value.text
  | value => heap.repr style value

end Heap

end ScriptCore
