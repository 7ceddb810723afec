import PatternAutomata.Minimize.Worklist
import PatternAutomata.Proofs.Dfa.Editing
import PatternAutomata.Proofs.Guarded.Partition

/-!
# What the worklist of partition refinement computes

The rounds of the worklist come to an end, and then two indices are in one block iff no word tells
them apart.  `Worklist.finishes_with_classes` says both, of the table of every automaton with a
state.

## Lists as sets

A block is a list here, it is divided in place, and its indices are renumbered one by one.  As
long as no block has an index twice, dividing its list is dividing the set of its members
(`Worklist.sets_split`).  So a round is a split of the partition of sets (`Worklist.round_spec`),
and what has been proved of such splits holds here.  The order in which splitters are used is of
no account, since that invariant asks only which of them are pending.

## Rounds as steps

A worklist is taken to its end by as many rounds as it takes, and there is no bound that stops it
early.  What holds before and after every round is `Worklist.Underway`; a round keeps it
(`Worklist.Underway.round`), and nothing that a round looks up is missing
(`Worklist.Underway.inRange`).  That the rounds end is a statement of its own
(`Worklist.Underway.exists_finishes`): what is pending and what may still become pending goes down
by one in every round.

## The first round

The loop starts from the accepting indices and the others, as far as there are any, with every
block pending under every symbol.  This is the partition of sets that the other refinement starts
from (`Worklist.sets_begin`), although it is numbered in another way.
-/

namespace PatternAutomata

open PatternAutomata.Partition (Splits Refining splitters)

/-! ### Lists without repeats as sets -/

namespace StateSet

theorem size_ofList {list : List Nat} (nodup : list.Nodup) : (ofList list).size = list.length := by
  have perm : (ofList list).toList.Perm list := by
    refine (List.perm_ext_iff_of_nodup (nodup_toList _) nodup).2 fun s => ?_
    rw [Std.ExtTreeSet.mem_toList, mem_ofList]
  rw [← Std.ExtTreeSet.length_toList, perm.length_eq]

theorem isEmpty_ofList (list : List Nat) : (ofList list).isEmpty = list.isEmpty := by
  rw [Bool.eq_iff_iff, Std.ExtTreeSet.isEmpty_iff, Std.ExtTreeSet.eq_empty_iff_forall_not_mem,
    List.isEmpty_iff, List.eq_nil_iff_forall_not_mem]
  simp only [mem_ofList]

theorem mem_foldl_insert {list : List Nat} {a : StateSet} {s : Nat} :
    s ∈ list.foldl (·.insert ·) a ↔ s ∈ a ∨ s ∈ list := by
  induction list generalizing a with
  | nil => simp
  | cons state list ih =>
      rw [List.foldl_cons, ih, Std.ExtTreeSet.mem_insert, Nat.compare_eq_eq, List.mem_cons,
        or_comm (a := state = s), or_assoc, eq_comm]

end StateSet

namespace Worklist

variable {t : Table} {w : Worklist} {size : Nat}

/-! ### Blocks as sets -/

@[simp] theorem numberOf_sets (w : Worklist) (i : Nat) : w.sets.numberOf i = w.numberOf i := rfl

@[simp] theorem size_blocks_sets (w : Worklist) : w.sets.blocks.size = w.blocks.size :=
  Array.size_map

@[simp] theorem block_sets (w : Worklist) (number : Nat) :
    w.sets.block number = StateSet.ofList (w.block number) := by
  rw [Partition.block, sets, block, Array.getD_eq_getD_getElem?, Array.getD_eq_getD_getElem?,
    Array.getElem?_map]
  cases w.blocks[number]? with
  | none => rfl
  | some block => rfl

/-- Renumbering does not depend on the order of the indices, nor on how often one of them is
listed. -/
theorem renumber_congr {list list' : List Nat} (h : ∀ s, s ∈ list ↔ s ∈ list')
    (numbers : Array Nat) (number : Nat) :
    renumber numbers list number = renumber numbers list' number := by
  apply Array.ext_getElem?
  intro i
  simp only [renumber, Partition.getElem?_foldl_setIfInBounds, h]

/-- A block has the indices with its number, and no others.  The lists and the numbers are two
ways to store one partition. -/
theorem mem_of_getElem? (valid : w.sets.Valid size) {b i : Nat} {list : List Nat}
    (h : w.blocks[b]? = some list) : i ∈ list ↔ i < size ∧ w.numberOf i = b := by
  have hlt := (Array.getElem?_eq_some_iff.1 h).1
  have hlist : w.block b = list := by
    rw [block, Array.getD_eq_getD_getElem?, h]
    rfl
  rw [← hlist, ← StateSet.mem_ofList, ← block_sets, valid.mem_block, size_blocks_sets]
  simp [hlt]

theorem getElem?_numberOf (valid : w.sets.Valid size) {i : Nat} (hi : i < size) :
    ∃ list, w.blocks[w.numberOf i]? = some list ∧ i ∈ list := by
  have hlt : w.numberOf i < w.blocks.size := size_blocks_sets w ▸ valid.number_lt i hi
  have hlist := Array.getElem?_eq_getElem hlt
  exact ⟨_, hlist, (mem_of_getElem? valid hlist).2 ⟨hi, rfl⟩⟩

theorem getElem?_blockOf (valid : w.sets.Valid size) {i : Nat} (hi : i < size) :
    w.blockOf[i]? = some (w.numberOf i) := by
  have hsize : i < w.blockOf.size := valid.size_blockOf.symm ▸ hi
  rw [numberOf, Array.getD_eq_getD_getElem?, Array.getElem?_eq_getElem hsize]
  rfl

/-! ### Splitting -/

theorem sets_move (symbols : Nat) (w : Worklist) (number : Nat) (kept moved : List Nat) :
    (w.move symbols number kept moved).sets =
      w.sets.move number (StateSet.ofList kept) (StateSet.ofList moved) := by
  have blocks : (w.move symbols number kept moved).sets.blocks =
      (w.sets.blocks.setIfInBounds number (StateSet.ofList kept)).push (StateSet.ofList moved) := by
    rw [sets, move, Array.map_push, Array.map_setIfInBounds]
    rfl
  have blockOf : (w.move symbols number kept moved).sets.blockOf =
      renumber w.blockOf (StateSet.ofList moved).toList w.blocks.size :=
    renumber_congr (fun s => by rw [Std.ExtTreeSet.mem_toList, StateSet.mem_ofList]) _ _
  rw [Partition.move, ← blocks, size_blocks_sets]
  exact congrArg (Partition.mk _) blockOf

theorem split_eq (symbols : Nat) (found : StateSet) (w : Worklist) (number : Nat) :
    w.split symbols found number =
      let inside := (w.block number).filter found.contains
      let outside := (w.block number).filter fun s => !found.contains s
      if outside = [] then w
      else if outside.length ≤ inside.length then w.move symbols number inside outside
      else w.move symbols number outside inside := by
  rw [split, List.partition_eq_filter_filter]
  simp only [List.isEmpty_iff]
  rfl

/-- **Dividing a list divides the set** of its members. -/
theorem sets_split {number : Nat} (nodup : (w.block number).Nodup) (symbols : Nat)
    (found : StateSet) :
    (w.split symbols found number).sets =
      w.sets.splitBlock number (StateSet.ofList ((w.block number).filter found.contains)) := by
  have inside_nodup := nodup.filter found.contains
  have outside_nodup := nodup.filter fun s => !found.contains s
  have lengths : (w.block number).length = ((w.block number).filter found.contains).length +
      ((w.block number).filter fun s => !found.contains s).length :=
    List.length_eq_length_filter_add found.contains
  have others : StateSet.ofList (w.block number) \
      StateSet.ofList ((w.block number).filter found.contains) =
        StateSet.ofList ((w.block number).filter fun s => !found.contains s) := by
    ext s
    simp only [Std.ExtTreeSet.mem_diff_iff, StateSet.mem_ofList, List.mem_filter, not_and,
      Bool.not_eq_true, Bool.not_eq_true']
    exact and_congr_right fun h => imp_iff_right h
  rw [split_eq, Partition.splitBlock_eq, block_sets, others, StateSet.size_ofList nodup,
    StateSet.size_ofList inside_nodup, StateSet.size_ofList outside_nodup, lengths]
  simp only
  generalize (w.block number).filter found.contains = inside
  generalize ((w.block number).filter fun s => !found.contains s) = outside
  by_cases hout : outside = []
  · rw [if_pos hout, if_pos (by rw [hout]; exact Nat.le_refl _)]
  · have hpos := List.length_pos_iff.2 hout
    have more : ¬ inside.length + outside.length ≤ inside.length := by omega
    rw [if_neg hout, if_neg more, apply_ite sets, sets_move, sets_move]

/-- A block is divided into lists with its members, or nothing happens.  For what concerns
repeats, it need not be known which of the parts is moved. -/
theorem split_cases (symbols : Nat) (found : StateSet) (w : Worklist) (number : Nat) :
    w.split symbols found number = w ∨ ∃ kept moved, kept.Sublist (w.block number) ∧
      moved.Sublist (w.block number) ∧
        w.split symbols found number = w.move symbols number kept moved := by
  rw [split_eq]
  simp only
  split
  case isTrue => exact .inl rfl
  case isFalse =>
    right
    split
    · exact ⟨_, _, List.filter_sublist, List.filter_sublist, rfl⟩
    · exact ⟨_, _, List.filter_sublist, List.filter_sublist, rfl⟩

theorem block_move (symbols : Nat) (w : Worklist) (number : Nat) (kept moved : List Nat) (b : Nat) :
    (w.move symbols number kept moved).block b =
      if b = w.blocks.size then moved
      else if b = number ∧ b < w.blocks.size then kept else w.block b := by
  rw [block, block, move, Array.getD_eq_getD_getElem?, Array.getD_eq_getD_getElem?,
    Array.getElem?_push, Array.size_setIfInBounds]
  by_cases hb : b = w.blocks.size
  · rw [if_pos hb, if_pos hb]
    rfl
  · rw [if_neg hb, if_neg hb, Array.getElem?_setIfInBounds]
    by_cases hn : number = b
    · subst hn
      by_cases hlt : number < w.blocks.size
      · simp [hlt]
      · simp [hlt]
    · simp [hn, Ne.symm hn]

/-- No block has an index twice.  A list that had would be larger than the set of its members, and
the smaller part might not be the smaller one. -/
def Distinct (w : Worklist) : Prop :=
  ∀ b, (w.block b).Nodup

theorem Distinct.split (distinct : w.Distinct) (symbols : Nat) (found : StateSet) (number : Nat) :
    (w.split symbols found number).Distinct := by
  intro b
  rcases split_cases symbols found w number with h | ⟨kept, moved, hkept, hmoved, h⟩
  · rw [h]
    exact distinct b
  · rw [h, block_move]
    split
    · exact (distinct number).sublist hmoved
    · split
      · exact (distinct number).sublist hkept
      · exact distinct b

/-- The other blocks stay as they are, as lists and not only as sets. -/
theorem block_split_of_ne {symbols number b : Nat} {found : StateSet} (hne : b ≠ number)
    (hlt : b < w.blocks.size) : (w.split symbols found number).block b = w.block b := by
  rcases split_cases symbols found w number with h | ⟨kept, moved, -, -, h⟩
  · rw [h]
  · rw [h, block_move, if_neg (Nat.ne_of_lt hlt), if_neg fun h => hne h.1]

/-- A new block is pending with every symbol, after what was pending before.  There is one at most
for each split. -/
theorem pending_split (symbols : Nat) (found : StateSet) (w : Worklist) (number : Nat) :
    w.blocks.size ≤ (w.split symbols found number).blocks.size ∧
      (w.split symbols found number).pending = w.pending ++
        splitters symbols w.blocks.size (w.split symbols found number).blocks.size := by
  rcases split_cases symbols found w number with h | ⟨kept, moved, -, -, h⟩
  · rw [h]
    simp [splitters]
  · rw [h, move]
    simp [splitters]

theorem splitters_append (symbols : Nat) {first next last : Nat} (h : first ≤ next)
    (h' : next ≤ last) :
    splitters symbols first next ++ splitters symbols next last = splitters symbols first last := by
  obtain ⟨m, rfl⟩ := Nat.exists_eq_add_of_le h
  obtain ⟨n, rfl⟩ := Nat.exists_eq_add_of_le h'
  have numbers : List.range' first (first + m + n - first) =
      List.range' first (first + m - first) ++
        List.range' (first + m) (first + m + n - (first + m)) := by
    rw [Nat.add_sub_cancel_left, Nat.add_assoc, Nat.add_sub_cancel_left, ← Nat.add_assoc,
      Nat.add_sub_cancel_left, List.range'_append_1]
  rw [splitters, splitters, splitters, ← List.flatMap_append, numbers]

/-- The part of a block that is in a set, with the number of the block. -/
def group (w : Worklist) (found : StateSet) (number : Nat) : Nat × StateSet :=
  (number, StateSet.ofList ((w.block number).filter found.contains))

/-- **Dividing several blocks** of lists divides the sets of their members, one after another.
The blocks have to be different, or the second division would be of a part. -/
theorem foldl_split (symbols : Nat) (found : StateSet) {numbers : List Nat}
    (distinct : w.Distinct) (nodup : numbers.Nodup) (hlt : ∀ n ∈ numbers, n < w.blocks.size) :
    (numbers.foldl (split symbols found) w).Distinct ∧
    (numbers.foldl (split symbols found) w).sets =
      (numbers.map (w.group found)).foldl (fun p g => p.splitBlock g.1 g.2) w.sets ∧
    w.blocks.size ≤ (numbers.foldl (split symbols found) w).blocks.size ∧
    (numbers.foldl (split symbols found) w).pending = w.pending ++
      splitters symbols w.blocks.size (numbers.foldl (split symbols found) w).blocks.size := by
  induction numbers generalizing w with
  | nil => simp [distinct, splitters]
  | cons number numbers ih =>
      obtain ⟨hnotin, hrest⟩ := List.nodup_cons.1 nodup
      obtain ⟨hgrow, hpending⟩ := pending_split symbols found w number
      have hlt' : ∀ n ∈ numbers, n < (w.split symbols found number).blocks.size := fun n hn =>
        (hlt n (List.mem_cons_of_mem _ hn)).trans_le hgrow
      obtain ⟨last, lastSets, lastGrow, lastPending⟩ :=
        ih (distinct.split symbols found number) hrest hlt'
      -- the blocks that are still to be divided are those that there were
      have groups : numbers.map ((w.split symbols found number).group found) =
          numbers.map (w.group found) := by
        refine List.map_congr_left fun n hn => ?_
        have hne : n ≠ number := fun h => hnotin (h ▸ hn)
        rw [group, group, block_split_of_ne hne (hlt n (List.mem_cons_of_mem _ hn))]
      rw [groups, sets_split (distinct number)] at lastSets
      rw [hpending, List.append_assoc, splitters_append symbols hgrow lastGrow] at lastPending
      exact ⟨last, lastSets, hgrow.trans lastGrow, lastPending⟩

/-! ### Rounds -/

/-- What holds before and after every round: no block has repeats, and the sets of members satisfy
the invariant of refinement. -/
structure Underway (t : Table) (w : Worklist) : Prop where
  distinct : w.Distinct
  refining : Refining t w.pending w.sets
  /-- The blocks of the pending splitters are there. -/
  number_lt : ∀ s ∈ w.pending, s.1 < w.blocks.size

theorem mem_foldl_entered {entered : Nat → List Nat} {targets : List Nat} {found : StateSet}
    {i : Nat} :
    i ∈ targets.foldl (fun found target => (entered target).foldl (·.insert ·) found) found ↔
      i ∈ found ∨ i ∈ targets.flatMap entered := by
  induction targets generalizing found with
  | nil => simp
  | cons target targets ih =>
      rw [List.foldl_cons, ih, StateSet.mem_foldl_insert, List.flatMap_cons, List.mem_append,
        or_assoc]

/-- The indices that move into a block, as a round collects them before it divides anything. -/
theorem mem_sources (valid : w.sets.Valid t.size) (sound : t.Sound) {number place i : Nat}
    (hplace : place < t.symbols.length) :
    i ∈ w.sources t number place ↔ i < t.size ∧ w.numberOf (t.step i place) = number := by
  have hentered : i ∈ (w.sets.block number).toList.flatMap (t.entered place) ↔
      i < t.size ∧ w.sets.numberOf (t.step i place) = number :=
    Partition.mem_flatMap_entered valid sound hplace fun _ htarget _ =>
      Partition.mem_inverse htarget
  rw [sources, mem_foldl_entered, ← numberOf_sets, ← hentered, block_sets]
  simp [List.mem_flatMap, StateSet.mem_ofList]

theorem mem_touched {found : StateSet} {number : Nat} :
    number ∈ w.touched found ↔ ∃ i ∈ found, w.numberOf i = number := by
  rw [touched, Std.ExtTreeSet.mem_toList, StateSet.mem_ofList, List.mem_map]
  simp only [Std.ExtTreeSet.mem_toList]

theorem nodup_touched (w : Worklist) (found : StateSet) : (w.touched found).Nodup :=
  nodup_toList _

/-- **A round** divides the blocks that the first pending splitter touches.  Without such a
splitter there is no round. -/
theorem round_eq {number place : Nat} {rest : List Partition.Splitter}
    (h : w.pending = (number, place) :: rest) :
    w.round t = (w.touched (w.sources t number place)).foldl
      (split t.symbols.length (w.sources t number place)) { w with pending := rest } := by
  rw [round, h]
  simp only
  split
  case isTrue hempty =>
    rw [Std.ExtTreeSet.isEmpty_iff] at hempty
    have none : w.touched (w.sources t number place) = [] := by
      rw [hempty]
      rfl
    rw [none]
    rfl
  case isFalse => rfl

/-- The blocks that are touched by some indices have parts among these, and every part has a
member. -/
theorem parts_group (valid : w.sets.Valid size) {found : StateSet} (hlt : ∀ i ∈ found, i < size) :
    w.sets.Parts ((w.touched found).map (w.group found)) where
  distinct := by
    rw [List.map_map]
    exact (List.map_id _).symm ▸ w.nodup_touched found
  number_lt g hg := by
    obtain ⟨n, hn, rfl⟩ := List.mem_map.1 hg
    obtain ⟨i, hi, rfl⟩ := mem_touched.1 hn
    exact valid.number_lt i (hlt i hi)
  subset g hg i hi := by
    obtain ⟨n, hn, rfl⟩ := List.mem_map.1 hg
    rw [group, StateSet.mem_ofList, List.mem_filter] at hi
    rw [block_sets, StateSet.mem_ofList]
    exact hi.1
  nonempty g hg := by
    obtain ⟨n, hn, rfl⟩ := List.mem_map.1 hg
    obtain ⟨i, hi, hnum⟩ := mem_touched.1 hn
    refine ⟨i, StateSet.mem_ofList.2 (List.mem_filter.2 ⟨?_, Std.ExtTreeSet.contains_iff_mem.2 hi⟩)⟩
    rw [← StateSet.mem_ofList, ← block_sets]
    exact (valid.mem_block n i).2 ⟨hlt i hi, hnum ▸ valid.number_lt i (hlt i hi), hnum⟩

/-- Every index of a set is in the part of its block, so together the parts are the set. -/
theorem exists_group_iff (valid : w.sets.Valid size) {found : StateSet} {i : Nat} (hi : i < size) :
    (∃ g ∈ (w.touched found).map (w.group found), i ∈ g.2) ↔ i ∈ found := by
  constructor
  · rintro ⟨g, hg, hmem⟩
    obtain ⟨n, -, rfl⟩ := List.mem_map.1 hg
    rw [group, StateSet.mem_ofList, List.mem_filter, Std.ExtTreeSet.contains_iff_mem] at hmem
    exact hmem.2
  · intro hfound
    refine ⟨w.group found (w.numberOf i),
      List.mem_map.2 ⟨_, mem_touched.2 ⟨i, hfound, rfl⟩, rfl⟩, ?_⟩
    have hblock : i ∈ w.sets.block (w.numberOf i) :=
      (valid.mem_block _ i).2 ⟨hi, valid.number_lt i hi, rfl⟩
    rw [block_sets, StateSet.mem_ofList] at hblock
    exact StateSet.mem_ofList.2
      (List.mem_filter.2 ⟨hblock, Std.ExtTreeSet.contains_iff_mem.2 hfound⟩)

/-- **A round splits every block** by what moves into the block of the first pending splitter.
This splitter has been used then, and new ones are pending for the new blocks only, behind the
others. -/
theorem round_spec (valid : w.sets.Valid t.size) (distinct : w.Distinct) (sound : t.Sound)
    {number place : Nat} {rest : List Partition.Splitter} (hplace : place < t.symbols.length)
    (hpending : w.pending = (number, place) :: rest) :
    (w.round t).Distinct ∧
    Splits t.size w.sets (fun i => w.numberOf (t.step i place) = number) (w.round t).sets ∧
    (w.round t).pending =
      rest ++ splitters t.symbols.length w.blocks.size (w.round t).blocks.size := by
  have hsources : ∀ i, i ∈ w.sources t number place ↔
      i < t.size ∧ w.numberOf (t.step i place) = number :=
    fun _ => mem_sources valid sound hplace
  rw [round_eq hpending]
  generalize w.sources t number place = found at hsources
  have hlt : ∀ i ∈ found, i < t.size := fun i hi => ((hsources i).1 hi).1
  have touched_lt : ∀ n ∈ w.touched found, n < w.blocks.size := by
    intro n hn
    obtain ⟨i, hi, rfl⟩ := mem_touched.1 hn
    rw [← size_blocks_sets]
    exact valid.number_lt i (hlt i hi)
  -- the pair is taken off before the blocks are split, and what the splits add goes to the end
  have rest_distinct : Distinct { w with pending := rest } := distinct
  obtain ⟨hdistinct, hsets, -, hlast⟩ := foldl_split t.symbols.length found rest_distinct
    (w.nodup_touched found) touched_lt
  refine ⟨hdistinct, ?_, hlast⟩
  rw [hsets]
  refine ((parts_group valid hlt).splits_foldl valid).congr fun i j hi hj _ => ?_
  have inside : ∀ i, i < t.size → ((∃ g ∈ (w.touched found).map (w.group found), i ∈ g.2) ↔
      w.numberOf (t.step i place) = number) := by
    intro i hi
    rw [exists_group_iff valid hi, hsources]
    exact and_iff_right hi
  exact iff_congr (inside i hi) (inside j hj)

/-- **A round keeps the invariant**, and leaves one splitter less but for those of new blocks. -/
theorem Underway.round (underway : w.Underway t) (sound : t.Sound) (h : w.pending ≠ []) :
    (w.round t).Underway t ∧ w.blocks.size ≤ (w.round t).blocks.size ∧
      (w.round t).pending.length + 1 =
        ((w.round t).blocks.size - w.blocks.size) * t.symbols.length + w.pending.length := by
  obtain ⟨distinct, refining, number_lt⟩ := underway
  obtain ⟨⟨number, place⟩, rest, hpending⟩ := List.exists_cons_of_ne_nil h
  rw [hpending] at refining number_lt
  obtain ⟨hdistinct, splits, hlast⟩ := round_spec refining.valid distinct sound
    (refining.place_lt _ List.mem_cons_self) hpending
  have hgrow : w.blocks.size ≤ (w.round t).blocks.size := by
    rw [← size_blocks_sets, ← size_blocks_sets]
    exact splits.size_le
  refine ⟨⟨hdistinct, ?_, fun s hs => ?_⟩, hgrow, ?_⟩
  · refine refining.of_splits sound splits (fun i _ => Iff.rfl) fun s => ?_
    rw [hlast, List.mem_append, or_comm, size_blocks_sets, size_blocks_sets]
  · rw [hlast] at hs
    rcases List.mem_append.1 hs with hs | hs
    · exact (number_lt s (List.mem_cons_of_mem _ hs)).trans_le hgrow
    · exact (Partition.mem_splitters.1 hs).2.1
  · rw [hlast, hpending, List.length_append, Partition.length_splitters, List.length_cons]
    omega

/-- **Nothing that a round looks up is missing**: blocks are never taken away, so a splitter that
is pending names one. -/
theorem Underway.inRange (underway : w.Underway t) : w.InRange t where
  splitter s hs := ⟨underway.number_lt s hs, underway.refining.place_lt s hs⟩
  index list hlist i hi := by
    obtain ⟨b, hb⟩ := Array.mem_iff_getElem?.1 hlist
    exact ((mem_of_getElem? underway.refining.valid hb).1 hi).1
  source place i _ hi := by
    have hsize : i < (t.inverse place).size := (Guarded.size_inverse t place).symm ▸ hi
    have hget : (t.inverse place).getD i [] = (t.inverse place)[i] := by
      rw [Array.getD_eq_getD_getElem?, Array.getElem?_eq_getElem hsize]
      rfl
    refine ⟨_, Array.getElem?_eq_getElem hsize, fun s hs => ?_⟩
    exact ((Partition.mem_inverse hi).1 (hget ▸ hs)).1
  number i hi := by
    have valid := underway.refining.valid
    exact ⟨_, getElem?_blockOf valid hi, size_blocks_sets w ▸ valid.number_lt i hi⟩

/-- **The rounds come to an end**, from wherever the invariant holds.  No number of rounds is
given with the worklist; it is found by counting the blocks that can still be made. -/
theorem Underway.exists_finishes (underway : w.Underway t) (sound : t.Sound) :
    ∃ last, Finishes t w last := by
  induction hn : w.pending.length + (t.size - w.blocks.size) * t.symbols.length using
    Nat.strongRecOn generalizing w with
  | ind n ih =>
    by_cases h : w.pending = []
    · exact ⟨w, .done h⟩
    · obtain ⟨next, hgrow, hlength⟩ := underway.round sound h
      have hbound : (w.round t).blocks.size ≤ t.size := by
        rw [← size_blocks_sets]
        exact next.refining.valid.size_le
      have hleft : ((w.round t).blocks.size - w.blocks.size) * t.symbols.length +
          w.pending.length + (t.size - (w.round t).blocks.size) * t.symbols.length = n :=
        (Partition.pending_add_left hgrow hbound).trans hn
      obtain ⟨last, rest⟩ := ih _ (by omega) next rfl
      exact ⟨last, .round h underway.inRange rest⟩

/-- The invariant holds when the rounds have come to an end, and nothing is pending then. -/
theorem Underway.of_finishes (underway : w.Underway t) (sound : t.Sound) {last : Worklist}
    (finishes : Finishes t w last) : last.Underway t ∧ last.pending = [] := by
  induction finishes with
  | done h => exact ⟨underway, h⟩
  | round h _ _ ih => exact ih (underway.round sound h).1

/-! ### The first round -/

@[simp] theorem size_renumber (numbers : Array Nat) (indices : List Nat) (number : Nat) :
    (renumber numbers indices number).size = numbers.size :=
  Partition.size_foldl_setIfInBounds _ _ _

theorem getElem?_renumber {numbers : Array Nat} {indices : List Nat} {number i : Nat}
    (hi : i < numbers.size) :
    (renumber numbers indices number)[i]? = if i ∈ indices then some number else numbers[i]? := by
  rw [renumber, Partition.getElem?_foldl_setIfInBounds]
  simp only [hi, and_true]

theorem enumerate_cons (numbers : Array Nat) (block : List Nat) (blocks : List (List Nat))
    (first : Nat) : enumerate numbers (block :: blocks) first =
      enumerate (renumber numbers block first) blocks (first + 1) := rfl

theorem size_enumerate (numbers : Array Nat) (blocks : List (List Nat)) (first : Nat) :
    (enumerate numbers blocks first).size = numbers.size := by
  induction blocks generalizing numbers first with
  | nil => rfl
  | cons block blocks ih => rw [enumerate_cons, ih, size_renumber]

theorem getElem?_enumerate_of_not_mem {numbers : Array Nat} {blocks : List (List Nat)} {i : Nat}
    (first : Nat) (hi : i < numbers.size) (h : ∀ block ∈ blocks, i ∉ block) :
    (enumerate numbers blocks first)[i]? = numbers[i]? := by
  induction blocks generalizing numbers first with
  | nil => rfl
  | cons block blocks ih =>
      rw [enumerate_cons, ih _ (by rwa [size_renumber]) fun b hb => h b (List.mem_cons_of_mem _ hb),
        getElem?_renumber hi, if_neg (h block List.mem_cons_self)]

/-- An index has the number of the block that it is in.  As the blocks are disjoint, a number once
given is not changed. -/
theorem getElem?_enumerate {numbers : Array Nat} {blocks : List (List Nat)} {i : Nat} (first : Nat)
    (hi : i < numbers.size) (disjoint : blocks.Pairwise List.Disjoint)
    (h : ∃ block ∈ blocks, i ∈ block) : (enumerate numbers blocks first)[i]? =
      some (first + blocks.findIdx (·.contains i)) := by
  induction blocks generalizing numbers first with
  | nil => simp at h
  | cons block blocks ih =>
      obtain ⟨hblock, hblocks⟩ := List.pairwise_cons.1 disjoint
      have hi' : i < (renumber numbers block first).size := by rwa [size_renumber]
      rw [enumerate_cons, List.findIdx_cons]
      by_cases hmem : i ∈ block
      · -- it is in no other block, so the number is not changed any more
        rw [getElem?_enumerate_of_not_mem _ hi' fun b hb => hblock b hb hmem, getElem?_renumber hi,
          if_pos hmem, List.contains_iff_mem.2 hmem]
        rfl
      · have others : ∃ block ∈ blocks, i ∈ block :=
          ((List.exists_mem_cons_iff ..).1 h).resolve_left hmem
        rw [ih _ hi' hblocks others]
        simp [hmem, Nat.add_assoc, Nat.add_comm 1]

/-- The accepting indices and the others, as far as there are any, in ascending order. -/
def halves (t : Table) : List (List Nat) :=
  [(List.range t.size).filter t.accepts, (List.range t.size).filter fun s => !t.accepts s].filter
    fun block => !block.isEmpty

theorem begin_eq (t : Table) : begin t =
    { blocks := (halves t).toArray
      blockOf := enumerate (Array.replicate t.size 0) (halves t) 0
      pending := splitters t.symbols.length 0 (halves t).length } := by
  rw [begin, List.partition_eq_filter_filter]
  rfl

theorem map_ofList_halves (t : Table) : (halves t).map StateSet.ofList =
    (Partition.halves t).filter fun b => !b.isEmpty := by
  have filled : (fun block : List Nat => !block.isEmpty) =
      (fun b : StateSet => !b.isEmpty) ∘ StateSet.ofList := by
    funext block
    rw [Function.comp_apply, StateSet.isEmpty_ofList]
  rw [halves, filled, ← List.filter_map]
  rfl

theorem disjoint_halves (t : Table) : (halves t).Pairwise List.Disjoint := by
  refine List.Pairwise.filter _ (List.pairwise_pair.2 fun i hi hi' => ?_)
  have hacc := (List.mem_filter.1 hi).2
  rw [← Bool.not_eq_false', (List.mem_filter.1 hi').2] at hacc
  cases hacc

theorem exists_mem_halves {i : Nat} (hi : i < t.size) : ∃ block ∈ halves t, i ∈ block := by
  obtain ⟨b, hb, hmem⟩ := Partition.exists_mem_halves hi
  have hmap : b ∈ (halves t).map StateSet.ofList := by
    rw [map_ofList_halves]
    exact List.mem_filter.2 ⟨hb, Partition.not_isEmpty_iff.2 ⟨i, hmem⟩⟩
  obtain ⟨block, hblock, rfl⟩ := List.mem_map.1 hmap
  exact ⟨block, hblock, StateSet.mem_ofList.1 hmem⟩

/-- Looking for an index in the blocks finds the number that it has been given. -/
theorem blockOf_begin (t : Table) : (begin t).blockOf =
    ((List.range t.size).map fun s =>
      ((halves t).map StateSet.ofList).findIdx (·.contains s)).toArray := by
  have contains : ∀ s, (fun b : StateSet => b.contains s) ∘ StateSet.ofList =
      fun block : List Nat => block.contains s := by
    intro s
    funext block
    rw [Function.comp_apply, Bool.eq_iff_iff, Std.ExtTreeSet.contains_iff_mem, StateSet.mem_ofList,
      List.contains_iff_mem]
  rw [begin_eq]
  apply Array.ext_getElem?
  intro i
  by_cases hi : i < t.size
  · simp only
    rw [getElem?_enumerate 0 (by rwa [Array.size_replicate]) (disjoint_halves t)
      (exists_mem_halves hi), List.getElem?_toArray, List.getElem?_map, List.getElem?_range hi,
      Option.map_some, List.findIdx_map, contains, Nat.zero_add]
  · rw [Array.getElem?_eq_none (by rw [size_enumerate, Array.size_replicate]; omega),
      Array.getElem?_eq_none (by simpa using hi)]

/-- The loop starts from the partition that the refinement starts from, so what is proved of the
one start holds of the other. -/
theorem sets_begin (t : Table) : (begin t).sets = Partition.initial t := by
  have initial_eq : Partition.initial t = ⟨((halves t).map StateSet.ofList).toArray,
      ((List.range t.size).map fun s =>
        ((halves t).map StateSet.ofList).findIdx (·.contains s)).toArray⟩ := by
    rw [map_ofList_halves]
    rfl
  rw [initial_eq, ← blockOf_begin, sets]
  congr 1
  rw [begin_eq, List.map_toArray]

theorem underway_begin (sound : t.Sound) : (begin t).Underway t where
  distinct b := by
    rw [block, begin_eq, Array.getD_eq_getD_getElem?, List.getElem?_toArray]
    cases hblock : (halves t)[b]? with
    | none => exact List.nodup_nil
    | some block =>
        have hmem := (List.mem_filter.1 (List.mem_of_getElem? hblock)).1
        rcases List.mem_pair.1 hmem with rfl | rfl
        · exact List.nodup_range.filter _
        · exact List.nodup_range.filter _
  refining := by
    have pending : (begin t).pending =
        splitters t.symbols.length 0 (Partition.initial t).blocks.size := by
      rw [← sets_begin, size_blocks_sets, begin_eq, List.size_toArray]
    rw [pending, sets_begin]
    exact Partition.refining_initial sound
  number_lt s hs := by
    rw [begin_eq] at hs ⊢
    exact (Partition.mem_splitters.1 hs).2.1

/-! ### The end -/

/-- The blocks are lists without repeats that divide the indices, and every index has the number
of its block. -/
structure Divided (size : Nat) (w : Worklist) : Prop where
  nonempty : ∀ block ∈ w.blocks, block ≠ []
  nodup : ∀ block ∈ w.blocks, block.Nodup
  disjoint : ∀ (a b : Nat) block other, w.blocks[a]? = some block → w.blocks[b]? = some other →
    a ≠ b → block.Disjoint other
  cover : ∀ i, (∃ block ∈ w.blocks, i ∈ block) ↔ i < size
  size_blockOf : w.blockOf.size = size
  named : ∀ i, i < size → ∃ number block,
    w.blockOf[i]? = some number ∧ w.blocks[number]? = some block ∧ i ∈ block

theorem divided_of_valid (valid : w.sets.Valid size) (distinct : w.Distinct) :
    w.Divided size where
  nonempty list hlist := by
    obtain ⟨b, hb⟩ := Array.mem_iff_getElem?.1 hlist
    obtain ⟨i, hi⟩ := valid.nonempty b (size_blocks_sets w ▸ (Array.getElem?_eq_some_iff.1 hb).1)
    obtain ⟨hlt, -, hnum⟩ := (valid.mem_block b i).1 hi
    exact List.ne_nil_of_mem ((mem_of_getElem? valid hb).2 ⟨hlt, hnum⟩)
  nodup list hlist := by
    obtain ⟨b, hb⟩ := Array.mem_iff_getElem?.1 hlist
    have nodup := distinct b
    rwa [block, Array.getD_eq_getD_getElem?, hb] at nodup
  disjoint a b list list' ha hb hne i hi hi' := by
    obtain ⟨-, hnum⟩ := (mem_of_getElem? valid ha).1 hi
    obtain ⟨-, hnum'⟩ := (mem_of_getElem? valid hb).1 hi'
    exact hne (hnum.symm.trans hnum')
  cover i := by
    constructor
    · rintro ⟨list, hlist, hi⟩
      obtain ⟨b, hb⟩ := Array.mem_iff_getElem?.1 hlist
      exact ((mem_of_getElem? valid hb).1 hi).1
    · intro hi
      obtain ⟨list, hlist, hmem⟩ := getElem?_numberOf valid hi
      exact ⟨list, Array.mem_of_getElem? hlist, hmem⟩
  size_blockOf := valid.size_blockOf
  named i hi := by
    obtain ⟨list, hlist, hmem⟩ := getElem?_numberOf valid hi
    exact ⟨w.numberOf i, list, getElem?_blockOf valid hi, hlist, hmem⟩

/-- Two indices are in one block.  It is said by the lists and not by the numbers, as the blocks
are what is left. -/
def Together (w : Worklist) (i j : Nat) : Prop :=
  ∃ block ∈ w.blocks, i ∈ block ∧ j ∈ block

theorem together_iff (valid : w.sets.Valid size) {i j : Nat} (hi : i < size) (hj : j < size) :
    w.Together i j ↔ w.numberOf i = w.numberOf j := by
  constructor
  · rintro ⟨list, hlist, hmem, hmem'⟩
    obtain ⟨b, hb⟩ := Array.mem_iff_getElem?.1 hlist
    exact ((mem_of_getElem? valid hb).1 hmem).2.trans ((mem_of_getElem? valid hb).1 hmem').2.symm
  · intro heq
    obtain ⟨list, hlist, hmem⟩ := getElem?_numberOf valid hi
    exact ⟨list, Array.mem_of_getElem? hlist, hmem,
      (mem_of_getElem? valid hlist).2 ⟨hj, heq.symm⟩⟩

/-- **The rounds come to an end, and the blocks that are left are the classes of indices that no
word tells apart.**  They are the blocks of the partition that a minimization goes by, although
they may be numbered in another way. -/
theorem finishes_with_classes {d : Dfa} (hpos : 0 < d.numStates) :
    (∃ w, Finishes (Table.ofDfa d) (begin (Table.ofDfa d)) w) ∧
    ∀ w, Finishes (Table.ofDfa d) (begin (Table.ofDfa d)) w →
      w.Divided (Table.ofDfa d).size ∧
      ∀ i j, i < (Table.ofDfa d).size → j < (Table.ofDfa d).size →
        (w.Together i j ↔ ¬ ∃ word, (Table.ofDfa d).TellsApart word i j) ∧
        (w.Together i j ↔ (Partition.refine (Table.ofDfa d)).numberOf i =
          (Partition.refine (Table.ofDfa d)).numberOf j) := by
  have sound := Table.ofDfa_sound hpos
  have first := underway_begin sound
  refine ⟨first.exists_finishes sound, fun w finishes => ?_⟩
  obtain ⟨underway, hnone⟩ := first.of_finishes sound finishes
  have inv := underway.refining
  rw [hnone] at inv
  refine ⟨divided_of_valid inv.valid underway.distinct, fun i j hi hj => ?_⟩
  have classes : w.Together i j ↔ (Table.ofDfa d).Alike i j :=
    (together_iff inv.valid hi hj).trans ⟨inv.alike sound hi hj, inv.together i j hi hj⟩
  exact ⟨classes.trans Table.alike_iff,
    classes.trans ((Partition.refine_spec sound).2 i j hi hj).symm⟩

/-- The start and the sink are told apart by the symbol of the only edge, and so end in different
blocks. -/
theorem finishes_with_classes_of_edge :
    let d := (Dfa.withAlphabet ∅).after [.addState false, .addState true, .addTransition 0 'a' 1]
    let t := Table.ofDfa d
    0 < d.numStates ∧ ∃ z, t.sink = some z ∧
      ∃ w, Finishes t (begin t) w ∧ w.Divided t.size ∧ ¬ w.Together t.start z := by
  intro d t
  have hpos : 0 < d.numStates := by decide
  have describes : t.Describes d := Table.ofDfa_describes hpos
  have wf : d.WellFormed := ((Dfa.Built.withAlphabet ∅).after (by decide)).wellFormed
  -- the accepting state has no edge, so there is a sink
  have hreached : 1 ∈ d.reachable.toList :=
    (Table.mem_toList_reachable hpos).2 ⟨['a'], by decide⟩
  obtain ⟨z, hz⟩ : ∃ z, t.sink = some z := by
    rcases Table.sink_ofDfa d with ⟨full, -⟩ | ⟨-, sink, -⟩
    · exact absurd (show d.transition 1 'a' = none by decide) (full 1 hreached 'a' (by decide))
    · exact ⟨_, sink⟩
  obtain ⟨⟨w, finishes⟩, spec⟩ := finishes_with_classes hpos
  obtain ⟨divided, classes⟩ := spec w finishes
  refine ⟨hpos, z, hz, w, finishes, divided, fun together => ?_⟩
  have alike : t.Alike t.start z := Table.alike_iff.2
    ((classes _ _ describes.sound.start_lt (describes.sink_lt hz)).1.1 together)
  have haccepts : d.accepts ['a'] = false := by
    rw [← describes.acceptsFrom_start wf, alike, describes.acceptsFrom_sink hz]
  exact absurd haccepts (by decide)

end Worklist

end PatternAutomata
