import PatternAutomata.Nfa.Basic
import PatternAutomata.Search

/-!
# Running a nondeterministic automaton

A nondeterministic automaton is run by following all its edges at once: at every point of the
input a set of states is active.  Reading a symbol takes the active states to their targets
(`Nfa.move`) and these to all that epsilon edges lead to from them (`Nfa.closure`), and
`Nfa.advance` is the two in turn.  Since the closure is taken after every move and once at the
start, an active set is always closed under epsilon edges.

`Nfa.accepts` stops early.  Once no state is active none ever will be, so the rest of the input is
not read; that this changes no answer is a fact about empty sets of states and is proved with the
others.

Closures may be asked for any states, also for such as the automaton does not have.  These are
active and lead nowhere.  They cannot come up in a run of an automaton whose edges stay among its
states.
-/

namespace PatternAutomata.Nfa

/-- The states met from some states along any number of epsilon edges, these states included. -/
def closure (nfa : Nfa) (states : StateSet) : StateSet :=
  Search.reach nfa.numStates (fun s => (nfa.silent s).toList) ∅ states.toList

/-- The states that are active before anything is read. -/
def initial (nfa : Nfa) : StateSet :=
  nfa.closure (.singleton nfa.start)

/-- The targets of some states under a symbol. -/
def move (nfa : Nfa) (states : StateSet) (c : Char) : StateSet :=
  states.toList.foldl (fun reached s => reached ∪ nfa.on s c) ∅

/-- The states that are active after one more symbol. -/
def advance (nfa : Nfa) (states : StateSet) (c : Char) : StateSet :=
  nfa.closure (nfa.move states c)

/-- Whether the rest of an input is accepted while some states are active.  Once none is, nothing
more needs to be read. -/
def acceptsFrom (nfa : Nfa) (active : StateSet) : List Char → Bool
  | [] => active.intersects nfa.accepting
  | c :: rest =>
    let next := nfa.advance active c
    if next.isEmpty then false else nfa.acceptsFrom next rest

/-- **Whether an input is accepted.** -/
def accepts (nfa : Nfa) (input : List Char) : Bool :=
  nfa.acceptsFrom nfa.initial input

/-- The targets of a state under any label. -/
def successors (nfa : Nfa) (state : Nat) : List Nat :=
  match nfa.rows[state]? with
  | none => []
  | some row => (row.moves.flatMap fun move => move.2.toList) ++ row.silent.toList

/-- Whether no input is accepted: no accepting state is met from the start state.  Labels do not
matter for this, so epsilon edges and others are followed alike. -/
def isEmpty (nfa : Nfa) : Bool :=
  !(Search.reach nfa.numStates nfa.successors ∅ [nfa.start]).intersects nfa.accepting

end PatternAutomata.Nfa
