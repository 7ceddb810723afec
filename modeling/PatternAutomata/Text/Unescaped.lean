import PatternAutomata.Text.Quoted

/-!
# Written forms read back

A text that begins with the written form of a symbol can be read from its front: `unescape?` tells
the symbol and what follows its written form, and `unescapeList` goes on like this over a text in
which written forms stand between commas, as they do in the label of an edge of a drawing.
Neither is run to build anything.  They are here because they make a statement possible: that a
label determines its symbols is said by one fixed function that gets them back.

## The comma is no escape

A comma stands between two written forms, and it is a written form itself, since a symbol may be a
comma.  Which of the two it is, is told by its place alone.  So `unescapeList` must not split the
text at commas first; it looks for a comma only where a written form has just ended, and the
recursion is on the text that is left (`length_lt_of_unescape?`).
-/

namespace PatternAutomata.Text

/-- The value of a hexadecimal digit in lower case.  What is not a digit is given some value as
well; only digits that were written by `codeEscape` are ever looked at. -/
def hexValue (digit : Char) : Nat :=
  if digit.isDigit then digit.toNat - 0x30 else digit.toNat - 0x57

/-- The number that hexadecimal digits stand for. -/
def hexNumber (digits : List Char) : Nat :=
  digits.foldl (fun number digit => 16 * number + hexValue digit) 0

/-- The symbol that a letter after a backslash stands for.  Any other character after a backslash
stands for itself, which covers both quotes and the backslash. -/
def ofShortEscape (letter : Char) : Char :=
  if letter = '0' then '\x00'
  else if letter = 't' then '\t'
  else if letter = 'r' then '\x0d'
  else if letter = 'n' then '\n'
  else letter

/-- **The symbol at the front of a text**, and the rest of the text.  The escape by code point is
tried first: its letter has no short escape, so the order of the cases decides nothing. -/
def unescape? : List Char → Option (Char × List Char)
  | [] => none
  | '\\' :: 'u' :: '\x7b' :: rest =>
    some (.ofNat (hexNumber (rest.takeWhile (· ≠ '\x7d'))), (rest.dropWhile (· ≠ '\x7d')).drop 1)
  | '\\' :: letter :: rest => some (ofShortEscape letter, rest)
  | c :: rest => some (c, rest)

/-- Reading a symbol takes something off the text. -/
theorem length_lt_of_unescape? {text rest : List Char} {c : Char}
    (h : unescape? text = some (c, rest)) : rest.length < text.length := by
  unfold unescape? at h
  split at h
  · cases h
  · rename_i more
    cases h
    have := (List.dropWhile_suffix (l := more) (· ≠ '\x7d')).length_le
    simp only [List.length_drop, List.length_cons]
    omega
  · cases h
    simp only [List.length_cons]
    omega
  · cases h
    simp

/-- **The symbols of a text** in which their written forms stand between commas.  There is no
answer where something else than a comma follows a written form, or nothing follows a comma. -/
def unescapeList (text : List Char) : Option (List Char) :=
  match _read : unescape? text with
  | none => none
  | some (c, []) => some [c]
  | some (c, separator :: rest) =>
    if separator = ',' then (unescapeList rest).map (c :: ·) else none
  termination_by text.length
  decreasing_by
    have := length_lt_of_unescape? ‹unescape? text = some (c, separator :: rest)›
    simp only [List.length_cons] at this
    omega

end PatternAutomata.Text
