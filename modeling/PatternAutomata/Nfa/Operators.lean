import PatternAutomata.Nfa.Basic
import PatternAutomata.Strategy

/-!
# Combining automata

Automata for the simplest languages (`Nfa.oneOf`, `Nfa.epsilon`, `Nfa.empty`), and an automaton
for every operator on languages (`Nfa.union`, `Nfa.concat`, `Nfa.star`, `Nfa.plus`,
`Nfa.optional`).

## Copies, moved up

An operator copies its operands into a new automaton, with their states moved past those that are
there already, and ties the copies together by epsilon edges.  It adds at most one state before
the copies and one behind them.  No state of an operand is merged with another, so each operand
keeps all of its edges, and a proof about an operator finds the operand in the result as a block
of consecutive numbers.  `a⁺` is `a` followed by `a*`, so it copies its operand twice.

`Nfa.star` has a start state of its own rather than making the operand's accept.  With that short
cut an operand with edges back into its start would accept wherever it comes back there, in the
middle of a word.

## Capacity

The definitions in `Strategy` do the same after they have checked the capacity.  What they check
is the sequence of sizes that the new automaton passes through while it is put together, so the
refusal can name a number that is smaller than the size of the result.
-/

namespace PatternAutomata

namespace Nfa

/-- Adds an epsilon edge from each of some states to one state.  A state that occurs twice gets
one edge. -/
def link (rows : Array Row) (sources : List Nat) (target : Nat) : Array Row :=
  sources.foldl (fun rows s => rows.modify s fun row => row.addEdge .epsilon target) rows

/-- The rows of an automaton, moved up. -/
def shiftedRows (nfa : Nfa) (offset : Nat) : Array Row :=
  nfa.rows.map (Row.shift offset)

/-- The accepting states of an automaton, moved up. -/
def shiftedAccepting (nfa : Nfa) (offset : Nat) : List Nat :=
  nfa.accepting.toList.map (offset + ·)

/-- A state that only epsilon edges leave. -/
def fork (targets : List Nat) : Row :=
  ⟨[], .ofList targets⟩

/-- Accepts the words of a single symbol out of some: two states with an edge for every symbol.  A
symbol that is listed twice gets one edge, at the place of its first occurrence. -/
def oneOf (symbols : List Char) : Nfa where
  rows := #[⟨symbols.eraseDups.map fun c => (c, .singleton 1), ∅⟩, .empty]
  start := 0
  accepting := .singleton 1
  alphabet := .ofList symbols

/-- Accepts the word without symbols. -/
def epsilon : Nfa where
  rows := #[.empty]
  start := 0
  accepting := .singleton 0
  alphabet := ∅

/-- Accepts nothing. -/
def empty : Nfa where
  rows := #[.empty]
  start := 0
  accepting := ∅
  alphabet := ∅

/-- Accepts the words of either operand: a new start state leads into both, and both lead
into a new accepting state. -/
def union (a b : Nfa) : Nfa :=
  let left := 1
  let right := left + a.numStates
  let final := right + b.numStates
  { rows := link
      (#[fork [left + a.start, right + b.start]] ++ a.shiftedRows left ++
        b.shiftedRows right ++ #[.empty])
      (a.shiftedAccepting left ++ b.shiftedAccepting right) final
    start := 0
    accepting := .singleton final
    alphabet := a.alphabet ∪ b.alphabet }

/-- Accepts a word of the first operand followed by one of the second: the accepting
states of the first lead into the start of the second. -/
def concat (a b : Nfa) : Nfa :=
  let right := a.numStates
  { rows := link a.rows a.accepting.toList (right + b.start) ++ b.shiftedRows right
    start := a.start
    accepting := .ofList (b.shiftedAccepting right)
    alphabet := a.alphabet ∪ b.alphabet }

/-- Accepts any number of words of the operand: edges to enter, to skip, to repeat and to leave
around a copy of it.  To repeat means to go from an accepting state of the copy to the start of
the copy, so the new start state is never entered again. -/
def star (a : Nfa) : Nfa :=
  let inner := 1
  let final := inner + a.numStates
  let exits := a.shiftedAccepting inner
  { rows := link
      (link (#[fork [inner + a.start, final]] ++ a.shiftedRows inner ++ #[.empty])
        exits (inner + a.start))
      exits final
    start := 0
    accepting := .singleton final
    alphabet := a.alphabet }

/-- Accepts at least one word of the operand: one, and then any number of them from a second
copy. -/
def plus (a : Nfa) : Nfa :=
  a.concat a.star

/-- Accepts a word of the operand or the word without symbols: like `star`, without the
edge to repeat. -/
def optional (a : Nfa) : Nfa :=
  let inner := 1
  let final := inner + a.numStates
  { rows := link (#[fork [inner + a.start, final]] ++ a.shiftedRows inner ++ #[.empty])
      (a.shiftedAccepting inner) final
    start := 0
    accepting := .singleton final
    alphabet := a.alphabet }

end Nfa

namespace Strategy

/-- The union of two automata, within the capacity. -/
def union (strategy : Strategy) (a b : Nfa) : Except Error Nfa := do
  strategy.checkUnion a.numStates b.numStates
  return a.union b

/-- The concatenation of two automata, within the capacity. -/
def concat (strategy : Strategy) (a b : Nfa) : Except Error Nfa := do
  strategy.checkConcat a.numStates b.numStates
  return a.concat b

/-- Any number of repetitions of an automaton, within the capacity. -/
def star (strategy : Strategy) (a : Nfa) : Except Error Nfa := do
  strategy.checkAround a.numStates
  return a.star

/-- One or more repetitions of an automaton, within the capacity. -/
def plus (strategy : Strategy) (a : Nfa) : Except Error Nfa := do
  strategy.checkPlus a.numStates
  return a.plus

/-- An automaton or the word without symbols, within the capacity. -/
def optional (strategy : Strategy) (a : Nfa) : Except Error Nfa := do
  strategy.checkAround a.numStates
  return a.optional

/-- An automaton, within the capacity. -/
def adopt (strategy : Strategy) (a : Nfa) : Except Error Nfa := do
  strategy.check a.numStates
  return a

end Strategy

end PatternAutomata
