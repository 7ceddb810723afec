import PatternAutomata.Proofs.Guarded.Basic
import PatternAutomata.Proofs.Minimize.Refinement

/-!
# Guarded partition refinement

Tables and partitions are full of lookups: the index of a state, the row of an index, the block of
an index, the indices of a block.  None of them is out of range (`Guarded.table_eq`,
`Guarded.refine_eq`).

## Tables

Only the states that are reached have an index.  A state that an edge leads to is reached because
the state it comes from is, so it has one.  The start state has one if there are any states, which
is where `0 < d.numStates` is used.

## Blocks

Every index is in a block from the beginning, in that of the accepting indices or in that of the
others, whichever of them is not empty.  Splitting keeps this (`Partition.Valid`), and it never
takes a block away.  Hence a splitter that is pending still names a block when it is used, however
many blocks were split in between: `Guarded.use_eq` has this as its invariant.

The groups that a round splits are found under the partition as it was before the first of them is
split.  So the splits of one round are not independent, and `Guarded.splitAll_eq` has to know that
a block that is still to be split has kept its members.
-/

namespace PatternAutomata.Guarded

variable {d : Dfa} {t : Table} {p : Partition}

/-! ### Tables -/

/-- The index of a state that is moved to, if any is.  Where an edge is missing, it is the sink,
and nothing is looked up. -/
def index (indices : Std.ExtTreeMap Nat Nat) (sink : Nat) : Option Nat → Guarded Nat
  | none => .ok sink
  | some target => expect indices[target]?

/-- The table of an automaton.  The states that are moved to have to have an index, and so has the
start state. -/
def table (dfa : Dfa) : Guarded Table := do
  let originals := dfa.reachable.toList
  let symbols := dfa.alphabet.toList
  let indices : Std.ExtTreeMap Nat Nat := .ofList originals.zipIdx
  let real := originals.length
  let rows := originals.map fun s => symbols.map fun c => dfa.transition s c
  let needsSink := rows.any fun row => row.any Option.isNone
  let delta ← rows.mapM fun row => row.mapM (index indices real)
  let start ← expect indices[dfa.start]?
  return {
    originals := originals
    symbols := symbols
    start := start
    sink := if needsSink then some real else none
    accepting := (originals.map dfa.isAccepting ++ if needsSink then [false] else []).toArray
    delta := (delta.map List.toArray ++
      if needsSink then [Array.replicate symbols.length real] else []).toArray }

/-- Where an index moves under the symbol at a place.  Both the row and the entry in it have to be
there. -/
def step (t : Table) (index place : Nat) : Guarded Nat := do
  let row ← expect t.delta[index]?
  expect row[place]?

/-- Whether an index accepts, which is on file for the sink as well. -/
def accepts (t : Table) (index : Nat) : Guarded Bool :=
  expect t.accepting[index]?

/-- The indices that move to each index under the symbol at a place.  What is moved to has to be
an index, or nothing would be recorded. -/
def inverse (t : Table) (place : Nat) : Guarded (Array (List Nat)) :=
  (List.range t.size).foldlM
    (fun entered s => do
      let target ← step t s place
      require (target < entered.size)
      return entered.modify target (s :: ·))
    (Array.replicate t.size [])

/-- **Every state that is moved to has an index.**  The hypothesis is there for the start state,
which is no state if there are none. -/
theorem table_eq (hpos : 0 < d.numStates) : table d = .ok (Table.ofDfa d) := by
  -- What a word leads to is reachable, and only what is reachable has an index.
  have exists_index : ∀ {s}, (∃ w, d.run w = some s) →
      ∃ i, (Std.ExtTreeMap.ofList d.reachable.toList.zipIdx compare)[s]? = some i := by
    intro s hs
    obtain ⟨i, hi⟩ := List.mem_iff_getElem?.1 ((Table.mem_toList_reachable hpos).2 hs)
    exact ⟨i, (Table.getElem?_indices (nodup_toList _)).2 hi⟩
  obtain ⟨start, hstart⟩ := exists_index ⟨[], rfl⟩
  have rows : ∀ row ∈ d.reachable.toList.map fun s => d.alphabet.toList.map (d.transition s),
      row.mapM (index (.ofList d.reachable.toList.zipIdx) d.reachable.toList.length) =
      .ok (row.map fun target =>
        match target with
        | none => d.reachable.toList.length
        | some u => (Std.ExtTreeMap.ofList d.reachable.toList.zipIdx compare)[u]?.getD
            d.reachable.toList.length) := by
    intro row hrow
    obtain ⟨s, hs, rfl⟩ := List.mem_map.1 hrow
    refine mapM_eq_ok fun target htarget => ?_
    obtain ⟨c, -, rfl⟩ := List.mem_map.1 htarget
    cases htr : d.transition s c with
    | none => rfl
    | some u =>
        obtain ⟨w, hw⟩ := (Table.mem_toList_reachable hpos).1 hs
        obtain ⟨i, hi⟩ := exists_index ⟨w ++ [c], by rw [Dfa.run_concat, hw]; exact htr⟩
        simp only [index, hi]
        rfl
  rw [table]
  simp only [mapM_eq_ok rows, ok_bind, hstart, expect_some, Table.ofDfa, Option.getD_some,
    List.map_map]
  rfl

theorem size_accepting_ofDfa (d : Dfa) :
    (Table.ofDfa d).accepting.size = (Table.ofDfa d).size := by
  simp only [Table.ofDfa, Table.size]
  split
  · simp
  · simp

theorem accepts_eq (size : t.accepting.size = t.size) {i : Nat} (hi : i < t.size) :
    accepts t i = .ok (t.accepts i) :=
  expect_getElem? (size ▸ hi) false

theorem step_eq (sound : t.Sound) {i a : Nat} (hi : i < t.size) (ha : a < t.symbols.length) :
    step t i a = .ok (t.step i a) := by
  rw [step, expect_getElem? hi #[], ok_bind]
  exact expect_getElem? ((sound.row_size i hi).symm ▸ ha) 0

theorem size_inverse (t : Table) (place : Nat) : (t.inverse place).size = t.size := by
  rw [Table.inverse]
  generalize List.range t.size = indices
  induction indices using List.reverseRecOn with
  | nil => simp
  | append_singleton indices s ih => rw [List.foldl_concat, Array.size_modify, ih]

theorem inverse_eq (sound : t.Sound) {place : Nat} (hplace : place < t.symbols.length) :
    inverse t place = .ok (t.inverse place) := by
  refine foldlM_eq_ok (fun entered => entered.size = t.size) (fun entered hsize s hs => ?_)
    (Array.size_replicate ..)
  have hs := List.mem_range.1 hs
  rw [step_eq sound hs hplace, ok_bind,
    require_of (hsize ▸ sound.step_lt s hs place hplace)]
  exact ⟨rfl, (Array.size_modify ..).trans hsize⟩

/-! ### Blocks -/

/-- The accepting indices and the others, as far as there are any.  Every index has to be in one
of the blocks. -/
def initial (t : Table) : Guarded Partition := do
  let indices := List.range t.size
  let accepting ← indices.filterM (accepts t)
  let rejecting ← indices.filterM fun s => return !(← accepts t s)
  let blocks := [StateSet.ofList accepting, StateSet.ofList rejecting].filter fun b => !b.isEmpty
  let blockOf ← indices.mapM fun s => expect (blocks.findIdx? (·.contains s))
  return { blocks := blocks.toArray, blockOf := blockOf.toArray }

/-- Splits a block into the indices in `inside` and the others.  The smaller part moves to a new
block, so its indices have to have an entry that can be changed. -/
def splitBlock (p : Partition) (number : Nat) (inside : StateSet) : Guarded Partition := do
  let whole ← expect p.blocks[number]?
  if whole.size ≤ inside.size then return p
  else
    let outside := whole \ inside
    let (kept, moved) :=
      if outside.size ≤ inside.size then (inside, outside) else (outside, inside)
    let fresh := p.blocks.size
    let blockOf ← moved.toList.foldlM
      (fun blockOf s => do
        require (s < blockOf.size)
        return blockOf.setIfInBounds s fresh)
      p.blockOf
    return { blocks := (p.blocks.setIfInBounds number kept).push moved, blockOf := blockOf }

/-- Indices, sorted into the blocks they belong to; an index without a block could not be sorted
in. -/
def group (p : Partition) (indices : List Nat) : Guarded (Std.ExtTreeMap Nat StateSet) :=
  indices.foldlM
    (fun groups s => do
      let number ← expect p.blockOf[s]?
      return groups.alter number fun g => some ((g.getD ∅).insert s))
    ∅

/-- Splits every block by some indices.  The blocks are looked up one after the other while the
partition changes. -/
def splitAll (p : Partition) (indices : List Nat) : Guarded Partition := do
  let groups ← group p indices
  groups.toList.foldlM (fun p (number, inside) => splitBlock p number inside) p

theorem initial_eq (size : t.accepting.size = t.size) :
    initial t = .ok (Partition.initial t) := by
  have accepting : (List.range t.size).filterM (accepts t) =
      .ok ((List.range t.size).filter t.accepts) :=
    filterM_eq_ok fun s hs => accepts_eq size (List.mem_range.1 hs)
  have rejecting : ((List.range t.size).filterM fun s => return !(← accepts t s)) =
      .ok ((List.range t.size).filter fun s => !t.accepts s) := by
    refine filterM_eq_ok fun s hs => ?_
    rw [accepts_eq size (List.mem_range.1 hs)]
    rfl
  -- The half that an index is in is not left out, since the index is in it.
  have numbers : ∀ s ∈ List.range t.size,
      expect (((Partition.halves t).filter fun b => !b.isEmpty).findIdx? (·.contains s)) =
        .ok (((Partition.halves t).filter fun b => !b.isEmpty).findIdx (·.contains s)) := by
    intro s hs
    obtain ⟨b, hb, hmem⟩ := Partition.exists_mem_halves (List.mem_range.1 hs)
    have kept : b ∈ (Partition.halves t).filter fun b => !b.isEmpty :=
      List.mem_filter.2 ⟨hb, Partition.not_isEmpty_iff.2 ⟨s, hmem⟩⟩
    have found : ∃ b ∈ (Partition.halves t).filter fun b => !b.isEmpty, b.contains s = true :=
      ⟨b, kept, Std.ExtTreeSet.contains_iff_mem.2 hmem⟩
    rw [List.findIdx?_eq_some_of_exists found]
    rfl
  have blockOf := mapM_eq_ok numbers
  rw [Partition.halves] at blockOf
  rw [initial, accepting, ok_bind, rejecting, ok_bind]
  simp only [blockOf]
  rfl

variable {size : Nat}

theorem splitBlock_eq (valid : p.Valid size) {number : Nat} (hnumber : number < p.blocks.size)
    {inside : StateSet} (hsub : ∀ i ∈ inside, i ∈ p.block number) :
    splitBlock p number inside = .ok (p.splitBlock number inside) := by
  -- Either half may be the one that moves, so this is stated for any part of the block.
  have renumber : ∀ moved : StateSet, (∀ i ∈ moved, i ∈ p.block number) →
      (moved.toList.foldlM
        (fun blockOf s => do
          require (s < blockOf.size)
          return blockOf.setIfInBounds s p.blocks.size)
        p.blockOf : Guarded (Array Nat)) =
      .ok (moved.toList.foldl (fun blockOf s => blockOf.setIfInBounds s p.blocks.size)
        p.blockOf) := by
    intro moved hmoved
    refine foldlM_eq_ok (fun blockOf => blockOf.size = size) (fun blockOf hsize s hs => ?_)
      valid.size_blockOf
    have hlt := ((valid.mem_block number s).1 (hmoved s (Std.ExtTreeSet.mem_toList.1 hs))).1
    rw [require_of (hsize ▸ hlt)]
    exact ⟨rfl, (Array.size_setIfInBounds ..).trans hsize⟩
  have hdiff : ∀ i ∈ p.block number \ inside, i ∈ p.block number := fun i hi =>
    (Std.ExtTreeSet.mem_diff_iff.1 hi).1
  rw [splitBlock, expect_getElem? hnumber ∅, ok_bind]
  show (if (p.block number).size ≤ inside.size then _ else _) = _
  unfold Partition.splitBlock
  by_cases hwhole : (p.block number).size ≤ inside.size
  · simp only [hwhole, if_true]
    rfl
  · by_cases hlarge : (p.block number \ inside).size ≤ inside.size
    · simp only [Partition.block] at *
      simp only [hwhole, hlarge, if_true, if_false, renumber _ hdiff, ok_bind]
      rfl
    · simp only [Partition.block] at *
      simp only [hwhole, hlarge, if_false, renumber _ hsub, ok_bind]
      rfl

theorem group_eq (valid : p.Valid size) {indices : List Nat} (hlt : ∀ i ∈ indices, i < size) :
    group p indices = .ok (p.group indices) := by
  refine foldlM_eq_ok (fun _ => True) (fun groups _ s hs => ⟨?_, trivial⟩) trivial
  have hs : s < p.blockOf.size := valid.size_blockOf.symm ▸ hlt s hs
  rw [expect_getElem? hs 0]
  rfl

/-- **Every block that is split is there**, and still has the members by which it was chosen. -/
theorem splitAll_eq (valid : p.Valid size) {indices : List Nat} (hlt : ∀ i ∈ indices, i < size) :
    splitAll p indices = .ok (p.splitAll indices) := by
  rw [splitAll, group_eq valid hlt, ok_bind, Partition.splitAll]
  have parts := Partition.parts_group valid hlt
  -- The groups come from the partition as it is before the first split.
  generalize (p.group indices).toList = groups at parts
  clear hlt
  induction groups generalizing p with
  | nil => rfl
  | cons g groups ih =>
      obtain ⟨number, inside⟩ := g
      have self : (number, inside) ∈ (number, inside) :: groups := List.mem_cons_self
      obtain ⟨split, rest⟩ := parts.splitBlock valid
      have first := splitBlock_eq valid (parts.number_lt _ self) (parts.subset _ self)
      simp only [List.foldlM_cons, List.foldl_cons, first, ok_bind]
      exact ih split.valid rest

/-! ### Rounds -/

/-- The indices that move to an index under the symbol at a place.  They are looked up among the
blocks later, so they have to be indices. -/
def entered (inverse : Array (Array (List Nat))) (size place index : Nat) :
    Guarded (List Nat) := do
  let column ← expect inverse[place]?
  let sources ← expect column[index]?
  sources.forM fun s => require (s < size)
  return sources

/-- Uses up to `rounds` splitters, each of which has to name a block and a symbol. -/
def use (symbols : Nat) (entered : Nat → Nat → Guarded (List Nat)) :
    Nat → List Partition.Splitter → Partition → Guarded Partition
  | 0, _, p => return p
  | _ + 1, [], p => return p
  | rounds + 1, (number, place) :: pending, p => do
    let block ← expect p.blocks[number]?
    let sources ← block.toList.mapM (entered place)
    let split ← splitAll p sources.flatten
    use symbols entered rounds
      (Partition.splitters symbols p.blocks.size split.blocks.size ++ pending) split

/-- The partition of a table, with all that is looked up on the way. -/
def refine (t : Table) : Guarded Partition := do
  let symbols := t.symbols.length
  let columns ← (List.range symbols).mapM (inverse t)
  let coarsest ← initial t
  use symbols (entered columns.toArray t.size) (symbols * t.size)
    (Partition.splitters symbols 0 coarsest.blocks.size) coarsest

theorem entered_eq {columns : Array (Array (List Nat))} {place : Nat}
    (column : columns[place]? = some (t.inverse place)) {i : Nat} (hi : i < t.size) :
    entered columns t.size place i = .ok ((t.inverse place).getD i []) := by
  have inside : ∀ s ∈ (t.inverse place).getD i [], require (s < t.size) = .ok () := fun s hs =>
    require_of ((Partition.mem_inverse hi).1 hs).1
  rw [entered, column, expect_some, ok_bind, expect_getElem? (size_inverse t place ▸ hi) [],
    ok_bind, forM_eq_ok inside, ok_bind]
  rfl

/-- **Every splitter that is used is there.**  The hypothesis `there` is kept by a round, since
blocks only get more, and the new splitters are for new blocks. -/
theorem use_eq {guarded : Nat → Nat → Guarded (List Nat)} {entered : Nat → Nat → List Nat}
    (agree : ∀ place, place < t.symbols.length → ∀ i, i < t.size →
      guarded place i = .ok (entered place i) ∧ ∀ s ∈ entered place i, s < t.size)
    {rounds : Nat} {pending : List Partition.Splitter} (valid : p.Valid t.size)
    (there : ∀ s ∈ pending, s.1 < p.blocks.size ∧ s.2 < t.symbols.length) :
    use t.symbols.length guarded rounds pending p =
      .ok (Partition.use t.symbols.length entered rounds pending p) := by
  induction rounds generalizing pending p with
  | zero => rfl
  | succ rounds ih =>
      cases pending with
      | nil => rfl
      | cons s rest =>
          obtain ⟨number, place⟩ := s
          obtain ⟨hnumber, hplace⟩ := there _ List.mem_cons_self
          have inside : ∀ i ∈ (p.block number).toList, i < t.size := fun i hi =>
            ((valid.mem_block number i).1 (Std.ExtTreeSet.mem_toList.1 hi)).1
          have sources : ∀ s ∈ ((p.block number).toList.map (entered place)).flatten,
              s < t.size := by
            intro s hs
            obtain ⟨list, hlist, hmem⟩ := List.mem_flatten.1 hs
            obtain ⟨i, hi, rfl⟩ := List.mem_map.1 hlist
            exact (agree place hplace i (inside i hi)).2 s hmem
          have split := Partition.splitAll_spec valid sources
          rw [use, expect_getElem? hnumber ∅, ok_bind]
          show (List.mapM _ (p.block number).toList >>= _) = _
          rw [mapM_eq_ok fun i hi => (agree place hplace i (inside i hi)).1, ok_bind,
            splitAll_eq valid sources, ok_bind, Partition.use, List.flatMap_def]
          -- Blocks are never taken away, so what is pending stays there.
          refine ih split.valid fun s hs => ?_
          rcases List.mem_append.1 hs with hs | hs
          · obtain ⟨-, hlt, hs⟩ := Partition.mem_splitters.1 hs
            exact ⟨hlt, hs⟩
          · obtain ⟨hlt, hs⟩ := there s (List.mem_cons_of_mem _ hs)
            exact ⟨Nat.lt_of_lt_of_le hlt split.size_le, hs⟩

/-- **A partition is refined without a lookup out of range.**  That the table is sound and has an
entry for every index is all that is asked of it. -/
theorem refine_eq (sound : t.Sound) (size : t.accepting.size = t.size) :
    refine t = .ok (Partition.refine t) := by
  have columns : (List.range t.symbols.length).mapM (inverse t) =
      .ok ((List.range t.symbols.length).map t.inverse) :=
    mapM_eq_ok fun place hplace => inverse_eq sound (List.mem_range.1 hplace)
  rw [refine, columns, ok_bind, initial_eq size, ok_bind]
  refine use_eq (fun place hplace i hi => ?_) (Partition.initial_valid t) fun s hs => ?_
  · have column : ((List.range t.symbols.length).map t.inverse).toArray[place]? =
        some (t.inverse place) := by
      simp [hplace]
    rw [show ((List.range t.symbols.length).map t.inverse).toArray.getD place #[] =
      t.inverse place by rw [Array.getD_eq_getD_getElem?, column]; rfl]
    exact ⟨entered_eq column hi, fun s hs => ((Partition.mem_inverse hi).1 hs).1⟩
  · obtain ⟨-, hlt, hplace⟩ := Partition.mem_splitters.1 hs
    exact ⟨hlt, hplace⟩

end PatternAutomata.Guarded
