import PatternAutomata.Alphabet
import PatternAutomata.Label
import PatternAutomata.StateSet.Basic

/-!
# Nondeterministic automata

An `Nfa` has states numbered from zero, and its edges carry a symbol or epsilon.  Several edges
may leave a state under one label, so the targets under a label are a set, and a `Nfa.Row` keeps
these sets for one state.

## Order in a row

A row keeps its symbols in the order in which they first got an edge.  The order is visible in
`Nfa.edgeRows` and is carried along when automata are combined, so it has to be there for listings
to come out right.  What the automaton accepts does not depend on it: everything that asks for
targets (`Nfa.targets?`, `Nfa.on`, `Nfa.silent`) looks a symbol up.  `Nfa.transitionMap`, and with
it what is shown of an automaton, sorts it away.

A state without an edge under a label has no entry for it, neither under a symbol nor under
epsilon.  So "there are no targets" has one representation in what is listed, and `Nfa.display`
shows states with edges only.

## States are numbers without a bound

States are natural numbers, as they are in deterministic automata.  Numbers of 32 bits would come
out otherwise from the state `2 ^ 32` on, and not before.  An operator of a pattern is under a
ceiling, 100 000 states unless another is configured, and dense sets hold 4 096 states whatever is
configured.  Where no ceiling applies, as for automata that are built by hand, every state still
takes a row with a list and a set in it, and memory is at an end long before the numbers are.
-/

namespace PatternAutomata

/-- The edges that leave one state of a nondeterministic automaton.  There is no set for a symbol
without targets. -/
structure Nfa.Row where
  /-- The targets under each symbol, in the order in which symbols first got an edge. -/
  moves : List (Char × StateSet)
  /-- The targets under epsilon. -/
  silent : StateSet

/-- A nondeterministic automaton.  Nothing here says that edges lead to states that exist; that
they do is an invariant of the ways in which automata come about. -/
structure Nfa where
  /-- The rows of the states, by number. -/
  rows : Array Nfa.Row
  /-- The start state. -/
  start : Nat
  /-- The accepting states. -/
  accepting : StateSet
  /-- The symbols that the automaton knows, with or without edges. -/
  alphabet : Alphabet

namespace Nfa

namespace Row

/-- A state that no edge leaves. -/
def empty : Row := ⟨[], ∅⟩

/-- Adds a target under a symbol.  A symbol that is new goes to the end, so the order of the list
is that of first use. -/
def insertMove (c : Char) (target : Nat) : List (Char × StateSet) → List (Char × StateSet)
  | [] => [(c, .singleton target)]
  | (d, targets) :: rest =>
    if d = c then (d, targets.insert target) :: rest
    else (d, targets) :: insertMove c target rest

/-- Adds an edge. -/
def addEdge (row : Row) (label : Label) (target : Nat) : Row :=
  match label with
  | .epsilon => { row with silent := row.silent.insert target }
  | .symbol c => { row with moves := insertMove c target row.moves }

/-- The row with all targets moved up. -/
def shift (offset : Nat) (row : Row) : Row where
  moves := row.moves.map fun (c, targets) => (c, targets.shift offset)
  silent := row.silent.shift offset

/-- The targets under a symbol, if there are any. -/
def on? (row : Row) (c : Char) : Option StateSet :=
  row.moves.lookup c

/-- The edges of the row, epsilon first and then by symbol, which is how they are shown. -/
def sorted (row : Row) : List (Label × StateSet) :=
  (if row.silent.isEmpty then [] else [(.epsilon, row.silent)]) ++
    (row.moves.mergeSort fun a b => a.1 ≤ b.1).map fun (c, targets) => (.symbol c, targets)

end Row

/-- The number of states. -/
def numStates (nfa : Nfa) : Nat :=
  nfa.rows.size

/-- The targets of a state under a label, if there are any.  The empty set is never an answer for
epsilon, so the answer also tells whether there is an edge. -/
def targets? (nfa : Nfa) (state : Nat) (label : Label) : Option StateSet :=
  match nfa.rows[state]? with
  | none => none
  | some row =>
    match label with
    | .epsilon => if row.silent.isEmpty then none else some row.silent
    | .symbol c => row.on? c

/-- The targets of a state under a symbol. -/
def on (nfa : Nfa) (state : Nat) (c : Char) : StateSet :=
  (nfa.targets? state (.symbol c)).getD ∅

/-- The targets of a state under epsilon. -/
def silent (nfa : Nfa) (state : Nat) : StateSet :=
  (nfa.targets? state .epsilon).getD ∅

/-- The rows with the numbers of their states. -/
def numbered (nfa : Nfa) : List (Nat × Row) :=
  nfa.rows.toList.zipIdx.map fun (row, state) => (state, row)

/-- All edges, by state and label: first those under symbols, then those under epsilon. -/
def edgeRows (nfa : Nfa) : List (Nat × Label × StateSet) :=
  (nfa.numbered.flatMap fun (state, row) =>
    row.moves.map fun (c, targets) => (state, .symbol c, targets)) ++
  nfa.numbered.filterMap fun (state, row) =>
    if row.silent.isEmpty then none else some (state, .epsilon, row.silent)

/-- All edges, one by one.  A state and a label may occur with several targets, one entry for
each. -/
def edges (nfa : Nfa) : List (Nat × Label × Nat) :=
  nfa.edgeRows.flatMap fun (state, label, targets) =>
    targets.toList.map fun target => (state, label, target)

/-- The number of edges. -/
def numTransitions (nfa : Nfa) : Nat :=
  nfa.edges.length

/-- The states with edges, each with its edges in order. -/
def transitionMap (nfa : Nfa) : List (Nat × List (Label × StateSet)) :=
  nfa.numbered.filterMap fun (state, row) =>
    match row.sorted with
    | [] => none
    | edges => some (state, edges)

/-- The states with edges, each with its edges in order, as they are shown.  The labels are
written forms here, and two labels may have the same. -/
def display (nfa : Nfa) : List (Nat × List (List Char × List Nat)) :=
  nfa.transitionMap.map fun (state, edges) =>
    (state, edges.map fun (label, targets) => (label.display, targets.toList))

end Nfa

end PatternAutomata
