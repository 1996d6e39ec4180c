/-!
# Quoted text

A string is written between single quotes, unless it holds a single quote and no
double quote; then double quotes enclose it.  Backslash, line feed, carriage return,
tab and the enclosing quote are escaped with a backslash, everything else is written
as it is.
-/

namespace ScriptCore.Text

/-- The character `'`. -/
def singleQuote : Char := '\x27'

/-- The character `"`. -/
def doubleQuote : Char := '\x22'

/-- The character that encloses a text. -/
def enclosingQuote (text : List Char) : Char :=
  if text.contains singleQuote && !text.contains doubleQuote then doubleQuote
  else singleQuote

/-- How one character is written between two marks `quote`. -/
def escapeChar (quote char : Char) : List Char :=
  if char = '\\' then ['\\', '\\']
  else if char = '\n' then ['\\', 'n']
  else if char = '\r' then ['\\', 'r']
  else if char = '\t' then ['\\', 't']
  else if char = quote then ['\\', char]
  else [char]

/-- A text between its quotes. -/
def quotedChars (text : List Char) : List Char :=
  let quote := enclosingQuote text
  quote :: (text.flatMap (escapeChar quote) ++ [quote])

end ScriptCore.Text
