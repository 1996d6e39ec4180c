/-!
# Addresses in text

An object is printed with its address, which says nothing about the program.  Where a text is
shown, each address is replaced by one and the same word, so equal programs show equal texts.

An address is a run of hexadecimal digits after the words that announce it.  The text is read
once from left to right; what was read before tells whether a digit begins an address.
-/

namespace ScriptCore.Text

/-- What stands before the address of an object. -/
def addressMark : List Char :=
  " object 0x".toList

/-- What is shown in place of an address. -/
def addressMask : List Char :=
  ['I', 'D']

/-- Whether a character may stand in an address: addresses are written in lower case. -/
def isAddressDigit (char : Char) : Bool :=
  ('0' ≤ char && char ≤ '9') || ('a' ≤ char && char ≤ 'f')

/-- Where a reader stands in a text. -/
inductive Place
  /-- Outside of addresses, after these characters, the latest first. -/
  | outside (before : List Char)
  /-- Among the digits of an address. -/
  | inside
deriving Repr, DecidableEq, Inhabited

/-- Whether an address can begin after these characters, the latest first. -/
def endsWithMark (before : List Char) : Bool :=
  addressMark.reverse.isPrefixOf before

/-- Replace the addresses in the rest of a text. -/
def maskFrom : Place → List Char → List Char
  | _, [] => []
  | .outside before, char :: rest =>
      if isAddressDigit char && endsWithMark before then addressMask ++ maskFrom .inside rest
      else char :: maskFrom (.outside (char :: before)) rest
  | .inside, char :: rest =>
      if isAddressDigit char then maskFrom .inside rest
      else char :: maskFrom (.outside [char]) rest

/-- Replace the addresses in a sequence of characters. -/
def maskChars (text : List Char) : List Char :=
  maskFrom (.outside []) text

/-- Replace the addresses in a text. -/
def maskAddresses (text : String) : String :=
  String.ofList (maskChars text.toList)

end ScriptCore.Text
