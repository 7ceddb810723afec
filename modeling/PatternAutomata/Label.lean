import PatternAutomata.Text.Quoted

/-!
# Labels

An edge of a nondeterministic automaton is followed by reading a symbol or by reading nothing at
all, and its `Label` says which.  Epsilon is a constructor of its own.  No symbol is set aside to
stand for it, so an alphabet never holds it, and an automaton can have every character as a
symbol, the letter ε among them.

Only how labels are *shown* is not so careful: `Label.display` writes epsilon as the letter ε,
which is how a symbol ε is written too.  When two automata are shown alike for this reason, and
that there is no other, is worked out in the module on the display of automata.
-/

namespace PatternAutomata

/-- The label of an edge. -/
inductive Label where
  /-- The edge is followed without reading a symbol. -/
  | epsilon
  /-- The edge is followed by reading this symbol. -/
  | symbol (c : Char)
  deriving DecidableEq

namespace Label

/-- Whether the edge is followed without reading a symbol. -/
def isEpsilon : Label → Bool
  | epsilon => true
  | symbol _ => false

/-- The symbol read, if one is. -/
def symbol? : Label → Option Char
  | epsilon => none
  | symbol c => some c

/-- The label as it is shown: the letter epsilon, or the symbol in its written form.  This is the
one place where epsilon and a symbol of the alphabet look the same. -/
def display : Label → List Char
  | epsilon => ['ε']
  | symbol c => Text.escape c

end Label

end PatternAutomata
