import PatternAutomata.Nfa.Simulation
import PatternAutomata.Strategy

/-!
# Running a nondeterministic automaton with stored sets

The run of an automaton again, with the sets of active states held in any state store.  There is
one definition here for each of the plain run, `Nfa.closureIn` for `Nfa.closure` and so on, made
of the same operations in the same order.  So that the two agree is a proof operation by
operation, and with it every store runs an automaton as any other does.

An automaton keeps its own sets, the targets and the accepting states, as sorted sets whatever the
store is.  They are handed to the store (`Nfa.hold`) where they take part in an operation on
stored sets.  `Strategy.accepts` fixes the store by the strategy that an automaton was built for.
-/

namespace PatternAutomata

namespace Nfa

variable {S : Type} [StateStore S] [LawfulStateStore S]

/-- A set of states, handed to a store.  It is filled state by state, and its room is made for the
greatest. -/
def hold (S : Type) [StateStore S] (states : StateSet) : S :=
  StateStore.ofList states.toList

/-- The states met from some states along any number of epsilon edges. -/
def closureIn (nfa : Nfa) (states : S) : S :=
  Search.collect nfa.numStates (fun s => (nfa.silent s).toList)
    (StateStore.withCapacity nfa.numStates) (StateStore.toList states)

/-- The states that are active before anything is read. -/
def initialIn (S : Type) [StateStore S] [LawfulStateStore S] (nfa : Nfa) : S :=
  nfa.closureIn (StateStore.singleton nfa.start nfa.numStates)

/-- The targets of some states under a symbol.  The store is given room for all states of the
automaton at once. -/
def moveIn (nfa : Nfa) (states : S) (c : Char) : S :=
  (StateStore.toList states).foldl
    (fun reached s => StateStore.union reached (hold S (nfa.on s c)))
    (StateStore.withCapacity nfa.numStates)

/-- The states that are active after one more symbol. -/
def advanceIn (nfa : Nfa) (states : S) (c : Char) : S :=
  nfa.closureIn (nfa.moveIn states c)

/-- Whether some of the active states accept. -/
def acceptingIn (nfa : Nfa) (active : S) : Bool :=
  StateStore.intersects active (hold S nfa.accepting)

/-- Whether the rest of an input is accepted while some states are active. -/
def acceptsFromIn (nfa : Nfa) (active : S) : List Char → Bool
  | [] => nfa.acceptingIn active
  | c :: rest =>
    let next := nfa.advanceIn active c
    if StateStore.isEmpty next then false else nfa.acceptsFromIn next rest

/-- **Whether an input is accepted.** -/
def acceptsIn (S : Type) [StateStore S] [LawfulStateStore S] (nfa : Nfa) (input : List Char) :
    Bool :=
  nfa.acceptsFromIn (nfa.initialIn S) input

end Nfa

/-- Whether a nondeterministic automaton accepts an input, with the sets of a strategy. -/
def Strategy.accepts (strategy : Strategy) (nfa : Nfa) (input : List Char) : Bool :=
  nfa.acceptsIn strategy.Store input

end PatternAutomata
