import PatternAutomata.Minimize.Quotient
import PatternAutomata.Powerset
import PatternAutomata.Strategy

/-!
# Deterministic automata as nondeterministic ones

A deterministic automaton is a nondeterministic one that happens to have no choice, and
`Dfa.toNfa` makes the change of types: the same states, the same edges, one target each.
`Nfa.ofDfa` holds the number of states against the capacity of a strategy first, since the
automaton is meant to be run with its sets.

`Nfa.minimize` goes from a nondeterministic automaton by way of the powerset construction and
minimization back to a nondeterministic one.  The result is only as small as a deterministic
automaton can be; a smaller one that makes use of choice may exist, and finding it is a harder
problem.
-/

namespace PatternAutomata

/-- The edges that leave a state, as they are kept in a nondeterministic automaton. -/
def Dfa.State.toRow (s : Dfa.State) : Nfa.Row :=
  ⟨s.moves.toList.map fun (c, target) => (c, .singleton target), ∅⟩

/-- The nondeterministic automaton with the same states and edges.  What the states of the
deterministic one stand for is not carried over. -/
def Dfa.toNfa (dfa : Dfa) : Nfa where
  rows := dfa.states.map Dfa.State.toRow
  start := dfa.start
  accepting := .ofList dfa.acceptStates
  alphabet := dfa.alphabet

namespace Nfa

/-- The nondeterministic automaton with the same states and edges, within the capacity of
a strategy. -/
def ofDfa (strategy : Strategy) (dfa : Dfa) : Except Error Nfa := do
  strategy.check dfa.numStates
  return dfa.toNfa

/-- The minimal deterministic automaton of a nondeterministic one, as a nondeterministic one.  The
powerset construction may make up to `limit` states, so the limit is on what comes up on the way
and not on the result. -/
def minimize (nfa : Nfa) (strategy : Strategy) (limit : Nat) : Except Error Nfa := do
  let whole ← strategy.determinize nfa limit
  let minimal ← whole.minimize
  ofDfa strategy minimal

end Nfa

end PatternAutomata
