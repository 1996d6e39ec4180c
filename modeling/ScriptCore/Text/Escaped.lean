import ScriptCore.Text.Hidden

/-!
# Escaped names

In listings a name stands between double quotes.  Double quotes, backslashes and the
control characters with a letter of their own are escaped with a backslash; other characters
that cannot be seen on their own are written by number.
-/

namespace ScriptCore.Text

/-- How a character is written in a listing. -/
def escapedChar (char : Char) : List Char :=
  if char = '\x00' then ['\\', '0']
  else if char = '\t' then ['\\', 't']
  else if char = '\r' then ['\\', 'r']
  else if char = '\n' then ['\\', 'n']
  else if char = '\x22' then ['\\', '\x22']
  else if char = '\\' then ['\\', '\\']
  else if isHidden char then
    '\\' :: 'u' :: '\x7b' :: (Nat.toDigits 16 char.toNat ++ ['\x7d'])
  else [char]

/-- A name between double quotes. -/
def escaped (text : String) : String :=
  String.ofList ('\x22' :: (text.toList.flatMap escapedChar ++ ['\x22']))

/-- Names between brackets, separated by commas. -/
def listing (names : List String) : String :=
  "[" ++ ", ".intercalate (names.map escaped) ++ "]"

end ScriptCore.Text
