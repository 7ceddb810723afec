import PatternAutomata.Text.ExtendingMark
import PatternAutomata.Text.Unprintable

/-!
# Characters in written form

Symbols are shown in two places, in the labels of automata and in the messages of errors.  Both
write a character as itself where that is readable and unambiguous, and by an escape that starts
with a backslash otherwise.  They differ in one character: `escape`, for a symbol inside a label,
escapes the double quote as well, since labels are put between double quotes in a drawing;
`quote`, for a symbol inside a message, puts single quotes around the symbol and leaves the double
quote bare.

## Three kinds of escape

`shortEscape?` has a letter for the characters that have one, and the character itself for the
single quote and the backslash.  `codeEscape` has the code point in lower-case hexadecimal between
braces, for what has no visible form or would join the character before it.  Every other character
is written as itself.

Written forms are lists of characters and not strings.  The theorems about them, that a label can
be read back and that two symbols are never written alike, are about the first few characters of a
form, and these a list gives up by its constructors.
-/

namespace PatternAutomata.Text

/-- The character written after the backslash for a character that has a short escape in every
context: the null character, tabulator, carriage return, line feed, the single quote and the
backslash.  The double quote is not among them, as it is escaped in labels only. -/
def shortEscape? (c : Char) : Option Char :=
  if c = '\x00' then some '0'
  else if c = '\t' then some 't'
  else if c = '\x0d' then some 'r'
  else if c = '\n' then some 'n'
  else if c = '\x27' then some '\x27'
  else if c = '\\' then some '\\'
  else none

/-- The escape by code point: `\u`, then the number in lower-case hexadecimal digits,
without leading zeros, between braces. -/
def codeEscape (c : Char) : List Char :=
  '\\' :: 'u' :: '\x7b' :: (Nat.toDigits 16 c.toNat ++ ['\x7d'])

/-- The written form of a character between single quotes, the quotes left out.  A short escape
goes before the escape by code point, so the controls that have a letter are never written by
number. -/
def escapeQuoted (c : Char) : List Char :=
  match shortEscape? c with
  | some letter => ['\\', letter]
  | none => if isExtendingMark c || isUnprintable c then codeEscape c else [c]

/-- The written form of a symbol inside a label.  Labels stand between double quotes, so the
double quote is the one character that is treated otherwise than in a message. -/
def escape (c : Char) : List Char :=
  if c = '\x22' then ['\\', '\x22'] else escapeQuoted c

/-- The written form of a symbol inside a message. -/
def quote (c : Char) : List Char :=
  '\x27' :: (escapeQuoted c ++ ['\x27'])

/-- A list of written forms, separated by commas and a space. -/
def commaList (items : List (List Char)) : List Char :=
  List.intercalate [',', ' '] items

/-- A set of written forms, in braces. -/
def inBraces (items : List (List Char)) : List Char :=
  '\x7b' :: (commaList items ++ ['\x7d'])

end PatternAutomata.Text
