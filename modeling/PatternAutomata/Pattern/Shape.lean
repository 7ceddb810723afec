/-!
# Simple shapes

Patterns of a few simple shapes have automata that can be written down without any construction.
A `Shape` is told from the characters of the pattern alone (`Shape.ofPattern?`), without reading
it: which characters come first that stand for themselves, and what follows them.

A shape is a matter of form.  A pattern can have the shape of a class and still be faulty as a
class, because a range in it descends or it has too many members; that shows when its automaton is
built, and then the general construction has the last word.

The characters that are plain here (`Shape.isPlain`) are fewer than those that stand for
themselves in the grammar: a caret and a dollar are left out, since at the ends of a pattern they
are anchors, and so is a closing bracket.  A pattern with one of them in its middle has no shape
and loses nothing by it.
-/

namespace PatternAutomata

/-- A pattern of a simple shape.  The constructors carry the texts that their automata need, so
the pattern is not looked at again, except for a class, which is read as a class. -/
inductive Shape where
  /-- Characters that stand for themselves. -/
  | literal (text : List Char)
  /-- The same after a caret. -/
  | anchoredStart (text : List Char)
  /-- The same before a dollar. -/
  | anchoredEnd (text : List Char)
  /-- Two literals with a bar between them. -/
  | alternation (left right : List Char)
  /-- A character that stands for itself, any number of times. -/
  | star (symbol : Char)
  /-- A bracket class without escapes; `text` is the whole pattern. -/
  | bracket (text : List Char)
  deriving DecidableEq

namespace Shape

/-- The characters that have a meaning outside a class. -/
def signs : List Char :=
  ['\\', '|', '*', '+', '?', '.', '(', ')', '[', ']', '^', '$']

/-- Whether a character stands for itself wherever it occurs outside a class. -/
def isPlain (c : Char) : Bool :=
  !signs.contains c

/-- Whether a text is one or more characters that stand for themselves. -/
def isWord (text : List Char) : Bool :=
  !text.isEmpty && text.all isPlain

/-- Whether a character is a plain member wherever it occurs inside a class, but for a hyphen
between two members.  An opening bracket would be one too, and is left out to keep the shape
simple. -/
def isMember (c : Char) : Bool :=
  c != '[' && c != ']' && c != '\\'

/-- Whether a text is the inside of a class without escapes, brackets and negation, and its
closing bracket.  The bracket has to be the last character of the pattern, so there is nothing
behind the class. -/
def isClassTail : List Char → Bool
  | [] => false
  | first :: rest =>
    isMember first && first != '^' &&
      match rest.reverse with
      | ']' :: inner => inner.all isMember
      | _ => false

/-- The shape of a pattern, if it has one.  All characters up to the first sign are taken at once,
and the sign decides what the shape can still be. -/
def ofPattern? (pattern : List Char) : Option Shape :=
  match pattern.takeWhile isPlain, pattern.dropWhile isPlain with
  | [], '^' :: text => if isWord text then some (anchoredStart text) else none
  | [], '[' :: rest => if isClassTail rest then some (bracket pattern) else none
  | [], _ => none
  | text, [] => some (literal text)
  | text, ['$'] => some (anchoredEnd text)
  | text, '|' :: right => if isWord right then some (alternation text right) else none
  | [c], ['*'] => some (star c)
  | _, _ => none

end Shape

end PatternAutomata
