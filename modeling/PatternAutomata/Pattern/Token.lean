import PatternAutomata.Error

/-!
# Tokens of a pattern

The text of a pattern falls into tokens: symbols, signs, and bracket classes as a whole.  A
backslash takes the meaning away from the character after it, inside a class as well as outside,
and what stands between brackets is no sign.  `Token.scan` cuts a text into tokens, each with the
offset at which it starts, by two functions that call one another, one for the text outside of
classes and one for the text inside.

## Cutting never fails

A text that ends in the middle of a token gives a token that says so (`Token.dangling`, and the
`BracketEnd` of a class), and whoever reads the tokens refuses it when it is reached.  So the
first fault of a pattern is the first in the order of reading, even if a later one is visible to
the cutting already.

## One cut for all

Whatever needs to know which parentheses are signs reads the same tokens: the reading itself, and
the check on how deep groups are nested.  The other way of reading a pattern, by descent over
characters, has rules of its own for this, and the two are compared by what they make of every
text.
-/

namespace PatternAutomata

/-- A character inside a bracket class.  Its place is that of the backslash, if it is escaped,
since errors point to where the writing of a character starts. -/
structure Piece where
  char : Char
  escaped : Bool
  offset : Nat
  deriving DecidableEq

namespace Piece

/-- Whether the piece is a dash that may stand between the ends of a range. -/
def isDash (p : Piece) : Bool :=
  p.char == '-' && !p.escaped

/-- Whether the piece is a caret that negates the class it starts. -/
def isCaret (p : Piece) : Bool :=
  p.char == '^' && !p.escaped

end Piece

/-- How the text of a bracket class ends. -/
inductive BracketEnd where
  /-- By its closing bracket. -/
  | closed
  /-- By the end of the pattern. -/
  | missing
  /-- By a backslash at the end of the pattern. -/
  | dangling (offset : Nat)
  deriving DecidableEq

/-- The text of a bracket class after its opening bracket, cut but not judged: whether the pieces
make up a class is found out when it is read. -/
structure Bracket where
  pieces : List Piece
  ending : BracketEnd
  deriving DecidableEq

/-- A token of a pattern. -/
inductive Token where
  /-- A character that stands for itself, escaped or not. -/
  | symbol (c : Char)
  /-- The sign for any symbol. -/
  | dot
  /-- The sign between alternatives. -/
  | bar
  /-- The sign that opens a group. -/
  | opening
  /-- The sign that closes a group. -/
  | closing
  /-- A sign that repeats what stands before it. -/
  | repetition (sign : Quantifier)
  /-- A bracket class. -/
  | bracket (b : Bracket)
  /-- A backslash at the end of the pattern. -/
  | dangling
  deriving DecidableEq

namespace Token

/-- The token of a character that is neither a backslash nor an opening bracket.  A closing
bracket is a symbol like any other here, since one that closes a class never gets this far. -/
def ofChar (c : Char) : Token :=
  if c = '.' then dot
  else if c = '|' then bar
  else if c = '(' then opening
  else if c = ')' then closing
  else
    match Quantifier.ofChar? c with
    | some sign => repetition sign
    | none => symbol c

mutual

/-- The tokens of a text that starts at `offset`. -/
def scan (offset : Nat) : List Char → List (Nat × Token)
  | [] => []
  | '\\' :: c :: rest => (offset, symbol c) :: scan (offset + 2) rest
  | '\\' :: [] => [(offset, dangling)]
  | '[' :: rest => scanBracket offset [] (offset + 1) rest
  | c :: rest => (offset, ofChar c) :: scan (offset + 1) rest

/-- The tokens of a text that starts at `offset` inside the bracket class that was opened
at `start`.  The pieces met so far are given last first. -/
def scanBracket (start : Nat) (pieces : List Piece) (offset : Nat) :
    List Char → List (Nat × Token)
  | [] => [(start, bracket ⟨pieces.reverse, .missing⟩)]
  | '\\' :: c :: rest =>
    scanBracket start (⟨c, true, offset⟩ :: pieces) (offset + 2) rest
  | '\\' :: [] => [(start, bracket ⟨pieces.reverse, .dangling offset⟩)]
  | ']' :: rest => (start, bracket ⟨pieces.reverse, .closed⟩) :: scan (offset + 1) rest
  | c :: rest => scanBracket start (⟨c, false, offset⟩ :: pieces) (offset + 1) rest

end

@[simp] theorem scan_nil (offset : Nat) : scan offset [] = [] := by
  rw [scan]

@[simp] theorem scan_escaped (offset : Nat) (c : Char) (rest : List Char) :
    scan offset ('\\' :: c :: rest) = (offset, symbol c) :: scan (offset + 2) rest := by
  rw [scan]

end Token

end PatternAutomata
