import PatternAutomata.Alphabet
import PatternAutomata.Strategy

/-!
# Configuration

What may be set for the reading of patterns and for the construction of automata.  A `Config`
mixes fields of two kinds, and the difference matters more than any single field.

**Ceilings.**  The four `max` fields bound the states of either kind of automaton, the nesting of
groups and the size of a class.  Lowering one can turn a result into an error, and it changes no
result otherwise: raising ceilings never turns one automaton into another.

**Methods.**  `bitsetThreshold`, `strategy` and `enableFastPaths` choose between ways of arriving
at the same automaton.  They too can decide whether there is a result, since each way has bounds
of its own.

`dotAlphabet` is neither.  It says what `.` stands for, and is the only field that the language of
a pattern depends on.
-/

namespace PatternAutomata

/-- The configuration under which a pattern is read and compiled.  Every field has a default, so a
configuration names only what it departs from. -/
structure Config where
  /-- The most states that the powerset construction may create. -/
  maxDfaStates : Nat := 10000
  /-- The most states that an operator of the pattern may ask for. -/
  maxNfaStates : Nat := 100000
  /-- The most groups that may be open at once. -/
  maxNestingDepth : Nat := 64
  /-- The most symbols that a bracket class may hold. -/
  maxClassSize : Nat := 4096
  /-- The symbols that `.` stands for. -/
  dotAlphabet : Alphabet := .standard
  /-- The expected number of states beyond which rows of bits are used. -/
  bitsetThreshold : Nat := 64
  /-- The way of holding sets of states, if it is not to be chosen by expectation. -/
  strategy : Option Strategy := none
  /-- Whether patterns of a simple shape are compiled directly. -/
  enableFastPaths : Bool := true

end PatternAutomata
