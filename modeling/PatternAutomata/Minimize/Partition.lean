import PatternAutomata.Minimize.Table

/-!
# Partition refinement

Indices of a table that accept the same words belong together.  The blocks of such indices are
found by starting from the coarsest division that is not wrong at once, accepting or not
(`Partition.initial`), and splitting blocks for as long as a symbol leads out of one block into
different blocks.  `Partition.refine` is the finished partition of a table.

## Splitters

A splitter is a block and a symbol; it splits every block of which some indices move into it and
some do not.  A list holds the splitters that have not been used.

## The smaller half

When a block is split, only one of its parts becomes a splitter, and it is the smaller one.  This
is what makes the refinement fast, and it is also the step that needs a reason.  The larger part
keeps its number, so splitters of the old block now are splitters of that part, and only the
smaller part is put on the list, under every symbol.  If the old block had been used already,
using one part is as good as using both, since the indices that move into the other part are the
remaining ones of those that were sorted out before.  The invariant behind this: for two indices
of one block that move into different blocks under a symbol, one of these two blocks is on the
list with that symbol.

## The end

A block is put on the list once under every symbol, and there are no more blocks than indices, so
the list is used up after at most as many rounds as the table has entries.  This number is the
fuel of `Partition.use`, and it has to be shown that it is never exhausted.
-/

namespace PatternAutomata

/-- A division of the indices of a table into blocks.  The two fields say the same thing twice, by
block and by index; a split changes both. -/
structure Partition where
  /-- The blocks, by number. -/
  blocks : Array StateSet
  /-- The number of the block of every index. -/
  blockOf : Array Nat

namespace Partition

/-- The block of an index. -/
def numberOf (p : Partition) (index : Nat) : Nat :=
  p.blockOf.getD index 0

/-- The indices of a block. -/
def block (p : Partition) (number : Nat) : StateSet :=
  p.blocks.getD number ∅

/-- The accepting indices and the others, as far as there are any.  An empty block is left out, so
all blocks have an index from the start. -/
def initial (t : Table) : Partition :=
  let indices := List.range t.size
  let accepting := StateSet.ofList (indices.filter t.accepts)
  let rejecting := StateSet.ofList (indices.filter fun s => !t.accepts s)
  let blocks := [accepting, rejecting].filter fun b => !b.isEmpty
  { blocks := blocks.toArray
    blockOf := (indices.map fun s => blocks.findIdx (·.contains s)).toArray }

/-- Splits a block into the indices in `inside`, which are all in the block, and the others.  The
larger part keeps the number of the block, and of equal parts the one inside.  Nothing changes if
there are no others. -/
def splitBlock (p : Partition) (number : Nat) (inside : StateSet) : Partition :=
  let whole := p.block number
  if whole.size ≤ inside.size then p
  else
    let outside := whole \ inside
    let (kept, moved) :=
      if outside.size ≤ inside.size then (inside, outside) else (outside, inside)
    let fresh := p.blocks.size
    { blocks := (p.blocks.setIfInBounds number kept).push moved
      blockOf := moved.toList.foldl (fun blockOf s => blockOf.setIfInBounds s fresh)
        p.blockOf }

/-- Indices, sorted into the blocks they belong to.  Blocks are named by numbers and come up in
the order of these. -/
def group (p : Partition) (indices : List Nat) : Std.ExtTreeMap Nat StateSet :=
  indices.foldl
    (fun groups s => groups.alter (p.numberOf s) fun g => some ((g.getD ∅).insert s)) ∅

/-- Splits every block by some indices.  The indices are sorted into blocks once, before the first
split, and a split of one block leaves the other blocks as they are. -/
def splitAll (p : Partition) (indices : List Nat) : Partition :=
  (p.group indices).toList.foldl (fun p (number, inside) => p.splitBlock number inside) p

/-- A block and a symbol, by number and place. -/
abbrev Splitter := Nat × Nat

/-- The splitters of the blocks numbered from `first` up to but not including `last`. -/
def splitters (symbols first last : Nat) : List Splitter :=
  (List.range' first (last - first)).flatMap fun number =>
    (List.range symbols).map fun place => (number, place)

/-- Uses up to `rounds` splitters.  `entered` tells which indices move to an index under the
symbol at a place.  New splitters go to the front of the list. -/
def use (symbols : Nat) (entered : Nat → Nat → List Nat) :
    Nat → List Splitter → Partition → Partition
  | 0, _, p => p
  | _ + 1, [], p => p
  | rounds + 1, (number, place) :: pending, p =>
    let split := p.splitAll ((p.block number).toList.flatMap (entered place))
    use symbols entered rounds
      (splitters symbols p.blocks.size split.blocks.size ++ pending) split

/-- **The blocks of indices that accept the same words.**  The edges are turned round once, for
every symbol, before the first splitter is used. -/
def refine (t : Table) : Partition :=
  let symbols := t.symbols.length
  let inverse := ((List.range symbols).map t.inverse).toArray
  let entered (place index : Nat) : List Nat := (inverse.getD place #[]).getD index []
  let coarsest := initial t
  use symbols entered (symbols * t.size) (splitters symbols 0 coarsest.blocks.size) coarsest

end Partition

end PatternAutomata
