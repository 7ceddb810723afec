import PatternAutomata.Config
import PatternAutomata.Dfa.Completion
import PatternAutomata.Minimize.Quotient
import PatternAutomata.Pattern.Bracket
import PatternAutomata.Pattern.Shape
import PatternAutomata.Trie

/-!
# Automata of simple shapes

Many patterns are no more than a plain word, a choice of two words, a repeated symbol or a bracket
class.  For such a `Shape` an automaton is written down directly, without tree and powerset
construction (`Shape.outline`), completed, and minimized (`Shape.toDfa`).  Since minimization
numbers states afresh, the result has to be the very automaton that the general construction has,
if it is right at all.

The ceiling on states is held against the completed outline, which may have more states than the
result.  `Dfa.direct?` says nothing about why there is no automaton.  A shape can be refused where
the general construction would succeed, and the other way round, so a refusal here is no refusal
of the pattern: the general construction is asked, and its answer stands.
-/

namespace PatternAutomata

namespace Shape

/-- An automaton for a shape in which the edges that lead nowhere are missing.  The anchored
shapes have the automaton of their text, as a pattern is always matched as a whole. -/
def outline (config : Config) : Shape → Except Error Dfa
  | literal text => Trie.toDfa [text]
  | anchoredStart text => Trie.toDfa [text]
  | anchoredEnd text => Trie.toDfa [text]
  | alternation left right => Trie.toDfa [left, right]
  | star c => Dfa.ofRows (.ofList [c]) [(true, [(c, 0)])]
  | bracket text => do
    let members ← Bracket.membersOf config.maxClassSize text
    Dfa.ofRows members [(false, members.toList.map fun c => (c, 1)), (true, [])]

/-- The minimal automaton of a shape.  The ceiling on its states is held against the
completed outline. -/
def toDfa (config : Config) (shape : Shape) : Except Error Dfa := do
  let (whole, _) ← (← shape.outline config).complete
  if config.maxDfaStates < whole.numStates then
    throw (.stateLimitExceeded whole.numStates config.maxDfaStates)
  whole.minimize

end Shape

/-- The minimal automaton of a pattern of a simple shape.  Nothing is said about why there is
none; the general construction will say it. -/
def Dfa.direct? (config : Config) (pattern : List Char) : Option Dfa :=
  match Shape.ofPattern? pattern with
  | none => none
  | some shape => (shape.toDfa config).toOption

end PatternAutomata
