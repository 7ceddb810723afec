import PatternAutomata.Dfa.Reachability

/-!
# Transition tables

Before the states of an automaton are compared, its reachable part is laid out as a `Table`: the
reachable states by index, and where each of them moves under the symbol at each place of the
alphabet.  Indices follow the order of the states, and unreachable states are gone from here on.

## The sink

If an edge is missing anywhere, one more index stands for a sink that takes all missing edges and
never leaves.  With it the table is total, so refinement has no case for missing edges; a missing
edge is told apart from one to a state that accepts later, and is *not* told apart from one to a
state from which nothing is accepted.  Whether the sink turns up in the result is decided when the
blocks are turned into states again.

`Table.inverse` turns the edges round, place by place.  Refinement asks for nothing else: it goes
from a block backwards to the indices that move into it.
-/

namespace PatternAutomata

/-- The reachable part of an automaton as a table.  The lists and arrays belong together by their
lengths, which is a property of the tables that are made here and not of the type. -/
structure Table where
  /-- The states that the indices stand for, without the sink. -/
  originals : List Nat
  /-- The symbols, ascending. -/
  symbols : List Char
  /-- The index of the start state. -/
  start : Nat
  /-- The index of the sink, if an edge is missing. -/
  sink : Option Nat
  /-- Whether each index accepts. -/
  accepting : Array Bool
  /-- For each index and each symbol, by its place, the index moved to. -/
  delta : Array (Array Nat)

namespace Table

/-- The number of indices. -/
def size (t : Table) : Nat :=
  t.delta.size

/-- Where an index moves under the symbol at a place.  Outside of the table this is the index
zero, which is never asked for. -/
def step (t : Table) (index place : Nat) : Nat :=
  (t.delta.getD index #[]).getD place 0

/-- Whether an index accepts. -/
def accepts (t : Table) (index : Nat) : Bool :=
  t.accepting.getD index false

/-- The table of an automaton.  The sink gets the index behind the last state, if it is needed, so
the other indices do not depend on whether it is. -/
def ofDfa (dfa : Dfa) : Table :=
  let originals := dfa.reachable.toList
  let symbols := dfa.alphabet.toList
  let indices : Std.ExtTreeMap Nat Nat := .ofList originals.zipIdx
  let real := originals.length
  let rows := originals.map fun s => symbols.map fun c => dfa.transition s c
  let needsSink := rows.any fun row => row.any Option.isNone
  let index (target : Option Nat) : Nat :=
    match target with
    | none => real
    | some t => indices[t]?.getD real
  { originals := originals
    symbols := symbols
    start := indices[dfa.start]?.getD real
    sink := if needsSink then some real else none
    accepting := (originals.map dfa.isAccepting ++
      if needsSink then [false] else []).toArray
    delta := (rows.map (fun row => (row.map index).toArray) ++
      if needsSink then [Array.replicate symbols.length real] else []).toArray }

/-- The indices that move to each index under the symbol at a place.  Each index is in one of the
lists, as the table is total. -/
def inverse (t : Table) (place : Nat) : Array (List Nat) :=
  (List.range t.size).foldl
    (fun entered s => entered.modify (t.step s place) (s :: ·))
    (Array.replicate t.size [])

/-- The state that an index stands for, if it is not the sink. -/
def original? (t : Table) (index : Nat) : Option Nat :=
  t.originals[index]?

end Table

end PatternAutomata
