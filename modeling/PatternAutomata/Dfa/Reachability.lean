import PatternAutomata.Dfa.Basic
import PatternAutomata.Search

/-!
# Reachable and dead states

Two questions about a state: does some input lead to it, and is any input accepted from it?
`Dfa.reachable` follows the edges forwards from the start state and answers the first.  `Dfa.live`
follows them backwards from the accepting states, and what it does not meet is `Dfa.dead`.  Both
are the same search (`Search.reach`) over different edges, which is why every edge is filed with
both its ends.

Deadness does not ask whether a state is reachable, so a state may be both unreached and dead, or
neither.  `Dfa.isEmpty` needs the reachable states alone: nothing is accepted iff none of them
accepts.  An automaton without states reaches nothing, although its start names a number; this is
why `Dfa.reachable` asks for a state first.
-/

namespace PatternAutomata.Dfa

/-- The targets of a state under any symbol. -/
def successors (dfa : Dfa) (state : Nat) : List Nat :=
  match dfa.states[state]? with
  | none => []
  | some s => s.moves.toList.map (·.2)

/-- The states from which some edge leads to a state. -/
def sources (dfa : Dfa) (state : Nat) : List Nat :=
  match dfa.states[state]? with
  | none => []
  | some s => s.sources.toList.flatMap (·.2)

/-- The states that some input leads to.  Without states there are none, not even the start. -/
def reachable (dfa : Dfa) : StateSet :=
  if dfa.numStates = 0 then ∅
  else Search.reach dfa.numStates dfa.successors ∅ [dfa.start]

/-- The states from which some input leads to an accepting state, whether or not an input leads to
them. -/
def live (dfa : Dfa) : StateSet :=
  Search.reach dfa.numStates dfa.sources ∅ dfa.acceptStates

/-- The states from which no input leads to an accepting state, ascending. -/
def dead (dfa : Dfa) : List Nat :=
  let live := dfa.live
  (List.range dfa.numStates).filter fun s => !live.contains s

/-- Whether a state is one from which no input leads to an accepting state. -/
def isDead (dfa : Dfa) (state : Nat) : Bool :=
  dfa.dead.contains state

/-- Whether no input is accepted. -/
def isEmpty (dfa : Dfa) : Bool :=
  dfa.reachable.toList.all fun s => !dfa.isAccepting s

end PatternAutomata.Dfa
