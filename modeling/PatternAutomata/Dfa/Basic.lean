import Std.Data.ExtTreeMap.Lemmas
import PatternAutomata.Alphabet
import PatternAutomata.Error
import PatternAutomata.StateSet.Basic

/-!
# Deterministic automata

A `Dfa` has states numbered from zero, and a state and a symbol have at most one target.  It is
built in steps: states come one by one with `Dfa.addState`, edges with `Dfa.addTransition`, and
everything else in the library that makes an automaton, the powerset construction, minimization,
completion, the direct constructions, is put together from these two.  `Dfa.ofRows` is the common
case of rows of edges that are all known at once.

## Two files, one truth

Every edge is filed twice, with the state it leaves and with the state it enters, so that it can
be followed in both directions (`Dfa.transition`, `Dfa.predecessors`).  The two files are changed
by the same function, `Dfa.file`, and by no other.  The sources that enter a state under a symbol
are kept latest first and read in the order in which they were added.

An edge is only added between states that exist, and a second target for the same state and symbol
is refused.  A refused edge changes nothing, nor does one that is there already.  An edge whose
symbol the alphabet does not have makes the alphabet grow.

`Dfa.isComplete` counts edges.  That the count tells whether one is missing depends on all of the
above: no edge twice, none outside the states, none under an unknown symbol.

## States are numbers without a bound

States are natural numbers.  If they were kept in 32 bits, numbers would have to be taken modulo
`2 ^ 32` wherever a state is added, and they would be other numbers than these only from the state
`2 ^ 32` on.  No automaton gets there.  The powerset construction is under a ceiling, 10 000
states unless another is configured; minimization only merges states and completion adds one; an
automaton of words has at most one state more than the words have symbols.  And if a ceiling of
more than `2 ^ 32` states were configured, every state would take a row of its own with two maps
in it, so that the memory would be used up long before the numbers.
-/

namespace PatternAutomata

/-- A state of a deterministic automaton, with both files of the edges at it. -/
structure Dfa.State where
  /-- Whether an input may end here. -/
  accepting : Bool
  /-- The target of the edge under each symbol. -/
  moves : Std.ExtTreeMap Char Nat
  /-- The states from which an edge under each symbol leads here, latest first. -/
  sources : Std.ExtTreeMap Char (List Nat)

/-- A deterministic automaton.  The alphabet is kept apart from the edges since an automaton may
know symbols under which it has no edge at all. -/
structure Dfa where
  /-- The states, by number. -/
  states : Array Dfa.State
  /-- The start state. -/
  start : Nat
  /-- The symbols that the automaton knows, with or without edges. -/
  alphabet : Alphabet
  /-- For every state the states of another automaton that it stands for, where known. -/
  mapping : Option (Std.ExtTreeMap Nat (List Nat))

namespace Dfa

/-- An automaton without states.  The first state that is added is the start state, so until then
`start` names a state that does not exist. -/
def withAlphabet (alphabet : Alphabet) : Dfa :=
  ⟨#[], 0, alphabet, none⟩

/-- The number of states. -/
def numStates (dfa : Dfa) : Nat :=
  dfa.states.size

/-- Adds a state, which gets the next number. -/
def addState (dfa : Dfa) (accepting : Bool) : Dfa :=
  { dfa with states := dfa.states.push ⟨accepting, ∅, ∅⟩ }

/-- Names the start state. -/
def setStart (dfa : Dfa) (state : Nat) : Dfa :=
  { dfa with start := state }

/-- Names the states of another automaton that the states stand for. -/
def setMapping (dfa : Dfa) (mapping : Std.ExtTreeMap Nat (List Nat)) : Dfa :=
  { dfa with mapping := some mapping }

/-- Whether an input may end in a state.  States that do not exist do not accept. -/
def isAccepting (dfa : Dfa) (state : Nat) : Bool :=
  match dfa.states[state]? with
  | none => false
  | some s => s.accepting

/-- The target of a state under a symbol, if there is one.  A state that does not exist has no
edges. -/
def transition (dfa : Dfa) (source : Nat) (c : Char) : Option Nat :=
  match dfa.states[source]? with
  | none => none
  | some s => s.moves[c]?

/-- The states from which an edge under a symbol leads to a state, in the order in which
the edges were added. -/
def predecessors (dfa : Dfa) (target : Nat) (c : Char) : List Nat :=
  match dfa.states[target]? with
  | none => []
  | some s => (s.sources[c]?.getD []).reverse

/-- Files an edge with both its ends, and its symbol with the alphabet.  Nothing is checked here:
whether the edge may be filed is for `addTransition` to say. -/
def file (dfa : Dfa) (source : Nat) (c : Char) (target : Nat) : Dfa :=
  { dfa with
    states := (dfa.states.modify source fun s => { s with moves := s.moves.insert c target })
      |>.modify target fun s =>
        { s with sources := s.sources.insert c (source :: s.sources[c]?.getD []) }
    alphabet := dfa.alphabet.insert c }

/-- Adds an edge.  An end that does not exist is refused first, then a second target; an edge that
is there already is granted and not filed again. -/
def addTransition (dfa : Dfa) (source : Nat) (c : Char) (target : Nat) :
    Except Error Dfa :=
  if dfa.numStates ≤ source ∨ dfa.numStates ≤ target then
    .error (.breached (.looseEdge source c target))
  else
    match dfa.transition source c with
    | none => .ok (dfa.file source c target)
    | some present =>
      if present = target then .ok dfa
      else .error (.breached (.secondTarget source c present target))

/-- Adds several edges, one after another, up to the first that is refused. -/
def addTransitions (dfa : Dfa) : List (Nat × Char × Nat) → Except Error Dfa
  | [] => .ok dfa
  | (source, c, target) :: rest => do
    let dfa ← dfa.addTransition source c target
    dfa.addTransitions rest

/-- The states with the numbers they have. -/
def numbered (dfa : Dfa) : List (Nat × State) :=
  dfa.states.toList.zipIdx.map fun (s, number) => (number, s)

/-- All edges, by source and then by symbol. -/
def transitions (dfa : Dfa) : List (Nat × Char × Nat) :=
  dfa.numbered.flatMap fun (number, s) =>
    s.moves.toList.map fun (c, target) => (number, c, target)

/-- The number of edges. -/
def numTransitions (dfa : Dfa) : Nat :=
  dfa.transitions.length

/-- The accepting states, ascending. -/
def acceptStates (dfa : Dfa) : List Nat :=
  (List.range dfa.numStates).filter dfa.isAccepting

/-- Whether every state has an edge under every symbol of the alphabet: there are as many edges as
that takes. -/
def isComplete (dfa : Dfa) : Bool :=
  dfa.numTransitions == dfa.numStates * dfa.alphabet.size

/-- The automaton with one state for every entry of a list, whose edges are added in order.  The
states come first, all of them, so that an edge may lead to a later row. -/
def ofRows (alphabet : Alphabet) (rows : List (Bool × List (Char × Nat))) :
    Except Error Dfa :=
  let bare := rows.foldl (fun dfa row => dfa.addState row.1) (withAlphabet alphabet)
  bare.addTransitions (rows.zipIdx.flatMap fun (row, source) =>
    row.2.map fun (c, target) => (source, c, target))

@[simp] theorem numStates_withAlphabet (alphabet : Alphabet) :
    (withAlphabet alphabet).numStates = 0 := rfl

@[simp] theorem numStates_addState (dfa : Dfa) (accepting : Bool) :
    (dfa.addState accepting).numStates = dfa.numStates + 1 := by
  simp [numStates, addState]

@[simp] theorem numStates_file (dfa : Dfa) (source : Nat) (c : Char) (target : Nat) :
    (dfa.file source c target).numStates = dfa.numStates := by
  simp [numStates, file]

end Dfa

end PatternAutomata
