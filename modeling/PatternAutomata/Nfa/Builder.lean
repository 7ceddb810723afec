import PatternAutomata.Nfa.Basic
import PatternAutomata.Strategy

/-!
# Building an automaton by hand

States and edges of a nondeterministic automaton are added one at a time.  A `Nfa.Builder` is an
automaton in the making: it may have no start state yet, and it is only when `Nfa.Builder.build`
is asked for the automaton that one has to have been named.

States are numbered in the order in which they are added.  A step that names a state that is not
there is refused and changes nothing, and so is a state beyond the capacity of the sets that the
automaton is meant for.  So every automaton that a builder gives out has edges between its own
states and an alphabet with all of their symbols, whatever was tried on the way.
-/

namespace PatternAutomata.Nfa

/-- An automaton in the making.  It differs from an automaton in the start state alone, which may
not have been named. -/
structure Builder where
  rows : Array Row
  start : Option Nat
  accepting : StateSet
  alphabet : Alphabet

namespace Builder

/-- Nothing has been added. -/
def empty : Builder := ⟨#[], none, ∅, ∅⟩

/-- The number of states so far. -/
def numStates (b : Builder) : Nat :=
  b.rows.size

/-- Refuses a state that is not there.  The refusal names the state and how many there are. -/
def checkState (b : Builder) (state : Nat) : Except Error Unit :=
  if state < b.numStates then .ok ()
  else .error (.breached (.missingState state b.numStates))

/-- Adds a state, which gets the next number. -/
def addState (strategy : Strategy) (b : Builder) : Except Error Builder := do
  strategy.check (b.numStates + 1)
  return { b with rows := b.rows.push .empty }

/-- Adds an edge.  The source is checked before the target, so where neither is there it is the
source that is named. -/
def addEdge (b : Builder) (source : Nat) (label : Label) (target : Nat) :
    Except Error Builder := do
  b.checkState source
  b.checkState target
  return { b with
    rows := b.rows.modify source fun row => row.addEdge label target
    alphabet := match label with
      | .epsilon => b.alphabet
      | .symbol c => b.alphabet.insert c }

/-- Names the start state. -/
def setStart (b : Builder) (state : Nat) : Except Error Builder := do
  b.checkState state
  return { b with start := some state }

/-- Adds an accepting state. -/
def addAccepting (b : Builder) (state : Nat) : Except Error Builder := do
  b.checkState state
  return { b with accepting := b.accepting.insert state }

/-- The automaton, if a start state has been named.  An accepting state is not asked for. -/
def build (b : Builder) : Except Error Nfa :=
  match b.start with
  | none => .error (.breached .missingStart)
  | some start => .ok ⟨b.rows, start, b.accepting, b.alphabet⟩

end Builder

end PatternAutomata.Nfa
