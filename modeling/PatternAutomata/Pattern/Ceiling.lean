import PatternAutomata.Config
import PatternAutomata.Pattern.Regex

/-!
# Operators under a ceiling

The operators of a pattern may only be applied as long as the automaton that they stand for stays
within bounds.  A `Ceiling` has the two bounds that there are, the configured number of states and
the strategy with its capacity, and `Ceiling.union`, `Ceiling.concat` and `Ceiling.repeated` are
the operators on trees with the checks in front of them.

The configured number is held against the result as a whole and comes first.  The capacity is held
against every number of states that the construction passes through.  So where both are exceeded
the configured ceiling is the one reported.

Leaves are not checked.  A pattern of a single atom has an automaton of two states whatever the
configured number is, and a ceiling of one does not refuse it: the ceiling is on what operators
may ask for.
-/

namespace PatternAutomata

/-- The bounds on the automaton of a pattern, as far as they do not concern its text. -/
structure Ceiling where
  maxStates : Nat
  strategy : Strategy

namespace Ceiling

/-- Refuses a result of more states than configured.  The number named is that of the result and
not how far over the ceiling it is. -/
def reserve (ceiling : Ceiling) (states : Nat) : Except Error Unit :=
  if ceiling.maxStates < states then
    .error (.stateLimitExceeded states ceiling.maxStates)
  else .ok ()

/-- The union of two trees, if its automaton stays within bounds. -/
def union (ceiling : Ceiling) (l r : Regex.Sized) : Except Error Regex.Sized := do
  ceiling.reserve (l.states + r.states + 2)
  ceiling.strategy.checkUnion l.states r.states
  return l.union r

/-- The concatenation of two trees, if its automaton stays within bounds. -/
def concat (ceiling : Ceiling) (l r : Regex.Sized) : Except Error Regex.Sized := do
  ceiling.reserve (l.states + r.states)
  ceiling.strategy.checkConcat l.states r.states
  return l.concat r

/-- A repeated tree, if its automaton stays within bounds. -/
def repeated (ceiling : Ceiling) (sign : Quantifier) (r : Regex.Sized) :
    Except Error Regex.Sized := do
  ceiling.reserve (Regex.Sized.statesAfter sign r.states)
  match sign with
  | .plus => ceiling.strategy.checkPlus r.states
  | _ => ceiling.strategy.checkAround r.states
  return r.repeated sign

end Ceiling

end PatternAutomata
