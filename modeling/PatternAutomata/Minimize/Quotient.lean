import PatternAutomata.Dfa.Survey
import PatternAutomata.Minimize.Partition

/-!
# Minimal automata

The minimal automaton has one state for every block of states that accept the same words.  A
`Quotient` is a table with the partition of its indices, `Quotient.system` presents the blocks as
a transition system, and `Quotient.toDfa` surveys it.  `Dfa.minimize` puts table, refinement and
quotient together.

## Who speaks for a block

All indices of a block move into the same blocks, so the least of them speaks for the block.  That
they all agree on acceptance is checked (`Quotient.blockAccepts`), although it cannot be otherwise
after a refinement.

## The block that is left out

A block that holds the sink alone stands for edges that were missing before; it is left out
(`Quotient.dropped?`), and the edges into it are missing again.  A block that holds the sink *and*
a state stays, and then edges that were missing lead there.  So whether the result has all edges
depends on whether the automaton has a reachable state from which nothing is accepted.

## Numbers that depend on the language

The blocks are numbered breadth first, over ascending symbols.  So the result depends on what the
automaton accepts and on what it leaves out, and not on how its states were numbered, in which
order splitters were used, or which index speaks for a block.
-/

namespace PatternAutomata

/-- A table with the partition of its indices into blocks.  That it is the partition of the
table's own indices is a fact about how quotients are made. -/
structure Quotient where
  table : Table
  partition : Partition

namespace Quotient

/-- The index that speaks for a block. -/
def speaker (q : Quotient) (block : Nat) : Nat :=
  (q.partition.block block).min?.getD 0

/-- The block that is left out, because it holds nothing but the sink.  Without a sink no block
is. -/
def dropped? (q : Quotient) : Option Nat :=
  match q.table.sink with
  | none => none
  | some sink =>
    let block := q.partition.numberOf sink
    if (q.partition.block block).size = 1 then some block else none

/-- The blocks, and how they follow from one another.  Edges into the block that is left out are
no edges of the system, so the block is never met. -/
def system (q : Quotient) : TransitionSystem Nat :=
  let dropped := q.dropped?
  { start := q.partition.numberOf q.table.start
    edges := fun block =>
      let row := q.table.delta.getD (q.speaker block) #[]
      (q.table.symbols.zip row.toList).filterMap fun (c, target) =>
        let next := q.partition.numberOf target
        if dropped = some next then none else some (c, next)
    key := fun block => [block] }

/-- Whether a block accepts; all its indices have to agree.  The refusal is a breach, which names
the states that do not. -/
def blockAccepts (q : Quotient) (block : Nat) : Except Error Bool :=
  let indices := (q.partition.block block).toList
  let accepting := q.table.accepts (q.speaker block)
  if indices.all fun s => q.table.accepts s == accepting then .ok accepting
  else .error (.breached (.mixedBlock (indices.filterMap q.table.original?)))

/-- The automaton of the blocks that are met from the start, with the block of each of its states.
There are no more points than blocks, so the survey is within its limit. -/
def toDfa (q : Quotient) : Except Error (Dfa × List Nat) :=
  match q.system.survey q.partition.blocks.size with
  | none => .error (.breached (.unnumberedBlock q.partition.blocks.size))
  | some survey => do
    let blocks := survey.found.toList
    let accepting ← blocks.mapM q.blockAccepts
    let dfa ← Dfa.ofRows (.ofList q.table.symbols) (accepting.zip survey.rows.toList)
    return (dfa, blocks)

/-- What the states of a block stand for, taken together, sorted and without repetitions. -/
def mergedMapping (q : Quotient) (mapping : Std.ExtTreeMap Nat (List Nat))
    (blocks : List Nat) : Std.ExtTreeMap Nat (List Nat) :=
  .ofList <| blocks.zipIdx.map fun (block, state) =>
    let members := (q.partition.block block).toList.filterMap q.table.original?
    (state, (StateSet.ofList (members.flatMap fun s => mapping[s]?.getD [])).toList)

end Quotient

/-- **The minimal automaton.**  Automata with at most one state or without symbols stay as they
are.  Without symbols only the start is ever in question, and states that are never reached are
kept. -/
def Dfa.minimize (dfa : Dfa) : Except Error Dfa :=
  if dfa.numStates ≤ 1 ∨ dfa.alphabet.isEmpty then .ok dfa
  else do
    let table := Table.ofDfa dfa
    let q : Quotient := ⟨table, Partition.refine table⟩
    let (minimal, blocks) ← q.toDfa
    match dfa.mapping with
    | none => return minimal
    | some mapping => return minimal.setMapping (q.mergedMapping mapping blocks)

end PatternAutomata
