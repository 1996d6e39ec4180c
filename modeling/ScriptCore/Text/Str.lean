/-!
# Strings with identity

A string of the language is a text together with the instance that carries it.
Equality and order look at the text alone; only identity looks at the instance.
Instances come from one supply, so two strings are the same instance exactly
when one was copied from the other.

Texts are ordered by the bytes of their UTF-8 encoding.
-/

namespace ScriptCore

/-- The numbers not yet given to any instance. -/
structure Supply where
  next : Nat := 0
deriving Repr, DecidableEq, Inhabited

namespace Supply

/-- Take a number that was never taken before. -/
def fresh (supply : Supply) : Nat × Supply :=
  (supply.next, ⟨supply.next + 1⟩)

end Supply

namespace Text

/-- The bytes of the UTF-8 encoding of a text. -/
def bytes (text : String) : List UInt8 :=
  text.toList.flatMap String.utf8EncodeChar

/-- Compare two byte sequences from the left; a proper initial part comes
first. -/
def compareBytes : List UInt8 → List UInt8 → Ordering
  | [], [] => .eq
  | [], _ :: _ => .lt
  | _ :: _, [] => .gt
  | first :: firsts, second :: seconds =>
      if first < second then .lt
      else if second < first then .gt
      else compareBytes firsts seconds

/-- The order of texts: that of their UTF-8 bytes. -/
def compare (left right : String) : Ordering :=
  compareBytes (bytes left) (bytes right)

/-- Whether `left` stands before `right` or is equal to it. -/
def le (left right : String) : Bool :=
  compare left right != .gt

/-- Texts in increasing order, repeats kept. -/
def sort (texts : List String) : List String :=
  texts.mergeSort le

end Text

/-- A string: its text, and the instance that carries it. -/
structure Str where
  text : String
  serial : Nat
deriving Repr, Inhabited

namespace Str

/-- Equal texts make equal strings, whatever their instances. -/
def equal (left right : Str) : Bool :=
  left.text == right.text

/-- The order of strings is the order of their texts. -/
def compare (left right : Str) : Ordering :=
  Text.compare left.text right.text

/-- Whether both are the same instance. -/
def same (left right : Str) : Bool :=
  left.serial == right.serial

/-- Equality that has no look at the texts of one and the same instance. -/
def equalAtOnce (left right : Str) : Bool :=
  left.same right || left.equal right

/-- The order of two strings, if they can be compared. -/
def compare? (left right : Str) : Option Ordering :=
  some (left.compare right)

/-- Whether the left string can be compared with the right one and stands before it. -/
def less (left right : Str) : Bool :=
  left.compare? right == some .lt

/-- Length in characters. -/
def length (string : Str) : Nat :=
  string.text.length

/-- Strings in increasing order, repeats kept. -/
def sort (strings : List Str) : List Str :=
  strings.mergeSort fun left right => left.compare right != .gt

end Str

end ScriptCore
