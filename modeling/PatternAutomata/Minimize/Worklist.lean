import PatternAutomata.Minimize.Partition

/-!
# The worklist of partition refinement

The refinement of a partition as a loop over blocks that are lists.  A `Worklist` has the blocks
in the middle of a refinement and the splitters that are pending, `Worklist.round` uses the first
of these, and `Worklist.split` divides a block.  Splitters are used in the order in which they
became pending, until none is left.

## Lists and not sets

The blocks keep an order here, which the parts of a block inherit, and a block is divided by going
through it once.  `Worklist.sets` forgets the order and gives the partition.  The sources of a
round are collected before any block is divided, so a block may be its own splitter.

## Rounds are not counted

There is no number of rounds after which the loop is broken off.  `Worklist.Finishes` relates a
worklist to the one at the end, and to nothing if the rounds do not come to an end, or one of them
looks up what is not there (`Worklist.InRange`).  So that the loop comes to an end, and without a
lookup that fails, is a theorem and not an assumption of the definition.
-/

namespace PatternAutomata

/-- The indices that move to an index under the symbol at a place. -/
def Table.entered (t : Table) (place index : Nat) : List Nat :=
  (t.inverse place).getD index []

/-- Blocks in the middle of a refinement.  A splitter on the list names a block by its number, and
the block may have been divided since it was put there. -/
structure Worklist where
  /-- The indices of the blocks, by number. -/
  blocks : Array (List Nat)
  /-- The number of the block of every index. -/
  blockOf : Array Nat
  /-- The splitters that have not been used, first come first. -/
  pending : List Partition.Splitter

namespace Worklist

/-- The block of an index. -/
def numberOf (w : Worklist) (index : Nat) : Nat :=
  w.blockOf.getD index 0

/-- The indices of a block. -/
def block (w : Worklist) (number : Nat) : List Nat :=
  w.blocks.getD number []

/-- The partition, with blocks as sets. -/
def sets (w : Worklist) : Partition where
  blocks := w.blocks.map StateSet.ofList
  blockOf := w.blockOf

/-- The numbers of indices when some of them have been given a new one. -/
def renumber (numbers : Array Nat) (indices : List Nat) (number : Nat) : Array Nat :=
  indices.foldl (fun numbers s => numbers.setIfInBounds s number) numbers

/-- The numbers of indices when those of some blocks have been given the numbers of the blocks, from
a first number on. -/
def enumerate (numbers : Array Nat) (blocks : List (List Nat)) (first : Nat) : Array Nat :=
  (blocks.zipIdx first).foldl (fun numbers (block, number) => renumber numbers block number) numbers

/-- The accepting indices and the others, as far as there are any.  Every block is pending with
every symbol. -/
def begin (t : Table) : Worklist :=
  let (accepting, rejecting) := (List.range t.size).partition t.accepts
  let blocks := [accepting, rejecting].filter fun block => !block.isEmpty
  { blocks := blocks.toArray
    blockOf := enumerate (Array.replicate t.size 0) blocks 0
    pending := Partition.splitters t.symbols.length 0 blocks.length }

/-- The indices that move into a block under the symbol at a place. -/
def sources (t : Table) (w : Worklist) (number place : Nat) : StateSet :=
  (w.block number).foldl (fun found target => (t.entered place target).foldl (·.insert ·) found) ∅

/-- A part of a block becomes the last block, and pending with every symbol. -/
def move (symbols : Nat) (w : Worklist) (number : Nat) (kept moved : List Nat) : Worklist where
  blocks := (w.blocks.setIfInBounds number kept).push moved
  blockOf := renumber w.blockOf moved w.blocks.size
  pending := w.pending ++ (List.range symbols).map fun place => (w.blocks.size, place)

/-- **Divides a block** into the indices that are in a set and the others.  The larger part keeps
the number of the block, and of equal parts the one in the set.  Nothing changes if there are no
others. -/
def split (symbols : Nat) (found : StateSet) (w : Worklist) (number : Nat) : Worklist :=
  let (inside, outside) := (w.block number).partition found.contains
  if outside.isEmpty then w
  else if outside.length ≤ inside.length then w.move symbols number inside outside
  else w.move symbols number outside inside

/-- The numbers of the blocks of some indices, ascending. -/
def touched (w : Worklist) (found : StateSet) : List Nat :=
  (StateSet.ofList (found.toList.map w.numberOf)).toList

/-- **One round**: the first pending splitter divides every block that it touches.  The blocks
that are touched are told by the numbers that indices have at the beginning of the round. -/
def round (t : Table) (w : Worklist) : Worklist :=
  match w.pending with
  | [] => w
  | (number, place) :: rest =>
    let found := w.sources t number place
    let w := { w with pending := rest }
    if found.isEmpty then w
    else (w.touched found).foldl (split t.symbols.length found) w

/-- All that a round looks up is there: the block and the place of a splitter, where its indices are
entered from, the numbers of these, and the blocks with these numbers.  A round takes no block away
and no number, so what is there at its beginning is there until its end. -/
structure InRange (t : Table) (w : Worklist) : Prop where
  splitter : ∀ s ∈ w.pending, s.1 < w.blocks.size ∧ s.2 < t.symbols.length
  index : ∀ block ∈ w.blocks, ∀ i ∈ block, i < t.size
  source : ∀ place i, place < t.symbols.length → i < t.size →
    ∃ sources, (t.inverse place)[i]? = some sources ∧ ∀ s ∈ sources, s < t.size
  number : ∀ i, i < t.size → ∃ number, w.blockOf[i]? = some number ∧ number < w.blocks.size

/-- **One round after another**, until nothing is pending: how the rounds come to an end.  A round
without something that it looks up has no end. -/
inductive Finishes (t : Table) : Worklist → Worklist → Prop where
  /-- Nothing is pending. -/
  | done {w : Worklist} (h : w.pending = []) : Finishes t w w
  /-- There is one more round. -/
  | round {w last : Worklist} (h : w.pending ≠ []) (inRange : w.InRange t)
      (rest : Finishes t (w.round t) last) : Finishes t w last

end Worklist

end PatternAutomata
