import PatternAutomata.Nfa.Operators
import PatternAutomata.Pattern.Assembly

/-!
# The automaton of a pattern

Every leaf and every operator of a regular expression has its automaton, and `Regex.toNfa` puts
them together along the tree.  No capacity is checked here.  By the time there is a tree every
operator in it has been held against the ceilings, with the number of states that its automaton is
going to have, so `Nfa.ofPattern` has only one place where it can be refused, and this is the
reading of the pattern.
-/

namespace PatternAutomata

/-- The automaton of a regular expression, operator by operator.  The operand of `plus` occurs
twice in its automaton, so the size is not that of the tree. -/
def Regex.toNfa : Regex → Nfa
  | empty => .epsilon
  | oneOf symbols => .oneOf symbols.toList
  | union l r => l.toNfa.union r.toNfa
  | concat l r => l.toNfa.concat r.toNfa
  | star r => r.toNfa.star
  | plus r => r.toNfa.plus
  | optional r => r.toNfa.optional

/-- The automaton of a pattern, or the first reason why there is none.  The strategy decides
nothing but what is refused. -/
def Nfa.ofPattern (config : Config) (strategy : Strategy) (pattern : List Char) :
    Except Error Nfa := do
  let regex ← Regex.parse config strategy pattern
  return regex.toNfa

end PatternAutomata
