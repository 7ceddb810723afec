import Mathlib.Data.Finset.Card
import Mathlib.Data.Finset.Range
import Mathlib.Data.List.Perm.Subperm
import PatternAutomata.Minimize.Partition
import PatternAutomata.Proofs.Minimize.Table

/-!
# What partition refinement finds

When the list of splitters is used up, two indices are in one block iff the same words are
accepted from them (`Partition.refine_spec`).

## One operation, described once

All that a round does to a partition is to split blocks by some indices, and `Partition.Splits`
says what that means without saying how it is done: two indices are together afterwards iff they
were before and both or neither is inside.  It also says that numbers are not exchanged, since
pending splitters refer to blocks by number.  `Partition.splitAll_spec` shows that the blocks are
split in this sense, and it is the only statement here that looks at arrays; the invariant of the
rounds is about `Splits` alone.  For that reason a worklist that holds lists instead of sets, and
uses its splitters in another order, can be treated by the same invariant.

## The invariant of the rounds

`Partition.Refining` has three parts.  Indices from which the same words are accepted have not
been parted, and an accepting index is never together with one that is not.  If two indices of one
block move into different blocks under some symbol, then one of these two blocks is pending with
that symbol.  The last part is what makes it enough to put only the smaller part of a split block
on the list: whatever was pending for the whole is pending for the part that keeps its number, and
for the other part everything is.

## The end

What is pending and what may still become pending goes down by one in every round, and the number
of rounds is at least as great; so after the last round nothing is pending
(`Partition.Refining.use`).  Then the last part of the invariant says that blocks move into
blocks, and an induction over words shows that the indices of a block accept the same ones.
-/

namespace PatternAutomata.Partition

/-- The blocks and the numbers of the indices agree, and no block is empty.  Hence there are no
more blocks than indices, which bounds the rounds. -/
structure Valid (size : Nat) (p : Partition) : Prop where
  size_blockOf : p.blockOf.size = size
  number_lt : ∀ i, i < size → p.numberOf i < p.blocks.size
  mem_block : ∀ b i, i ∈ p.block b ↔ i < size ∧ b < p.blocks.size ∧ p.numberOf i = b
  nonempty : ∀ b, b < p.blocks.size → ∃ i, i ∈ p.block b

/-- `Splits size p inside q`: every block of `p` is split in `q` by whether its indices are
`inside`.  The number of a block of `p` stays with one of its parts, and it is left open with
which. -/
structure Splits (size : Nat) (p : Partition) (inside : Nat → Prop) (q : Partition) : Prop where
  valid : q.Valid size
  size_le : p.blocks.size ≤ q.blocks.size
  eq_iff : ∀ i j, i < size → j < size →
    (q.numberOf i = q.numberOf j ↔ p.numberOf i = p.numberOf j ∧ (inside i ↔ inside j))
  kept : ∀ i, i < size → q.numberOf i < p.blocks.size → q.numberOf i = p.numberOf i

variable {size : Nat} {p q : Partition} {t : Table}

/-! ### Valid partitions -/

/-- There are no more blocks than indices, since each block holds one and no two hold the same. -/
theorem Valid.size_le (valid : p.Valid size) : p.blocks.size ≤ size := by
  have cover : Finset.range p.blocks.size ⊆ (Finset.range size).image p.numberOf := by
    intro b hb
    obtain ⟨i, hi⟩ := valid.nonempty b (Finset.mem_range.1 hb)
    obtain ⟨hlt, -, hnum⟩ := (valid.mem_block b i).1 hi
    exact Finset.mem_image.2 ⟨i, Finset.mem_range.2 hlt, hnum⟩
  calc p.blocks.size = (Finset.range p.blocks.size).card := (Finset.card_range _).symm
    _ ≤ ((Finset.range size).image p.numberOf).card := Finset.card_le_card cover
    _ ≤ (Finset.range size).card := Finset.card_image_le
    _ = size := Finset.card_range _

theorem subperm_toList {a b : StateSet} (hsub : ∀ i ∈ a, i ∈ b) : a.toList.Subperm b.toList :=
  (nodup_toList a).subperm fun i hi =>
    Std.ExtTreeSet.mem_toList.2 (hsub i (Std.ExtTreeSet.mem_toList.1 hi))

/-- A set within another one is not larger.  Sizes are what the refinement compares to find the
smaller part. -/
theorem size_le_of_subset {a b : StateSet} (hsub : ∀ i ∈ a, i ∈ b) : a.size ≤ b.size := by
  rw [← Std.ExtTreeSet.length_toList, ← Std.ExtTreeSet.length_toList]
  exact (subperm_toList hsub).length_le

/-- A set within another one that is not smaller has the same members, so that there is nothing to
split. -/
theorem mem_of_size_le {a b : StateSet} (hsub : ∀ i ∈ a, i ∈ b) (hsize : b.size ≤ a.size)
    {i : Nat} (hi : i ∈ b) : i ∈ a := by
  have perm := (subperm_toList hsub).perm_of_length_le
    (by rwa [Std.ExtTreeSet.length_toList, Std.ExtTreeSet.length_toList])
  exact Std.ExtTreeSet.mem_toList.1 (perm.mem_iff.2 (Std.ExtTreeSet.mem_toList.2 hi))

/-- The number of every index after some indices are given a new one, in whatever order this is
done. -/
theorem getElem?_foldl_setIfInBounds (moved : List Nat) (fresh : Nat) (numbers : Array Nat)
    (i : Nat) :
    (moved.foldl (fun numbers s => numbers.setIfInBounds s fresh) numbers)[i]? =
      if i ∈ moved ∧ i < numbers.size then some fresh else numbers[i]? := by
  induction moved generalizing numbers with
  | nil => simp
  | cons s moved ih =>
      rw [List.foldl_cons, ih, Array.size_setIfInBounds, Array.getElem?_setIfInBounds]
      by_cases hs : s = i
      · subst hs
        by_cases hlt : s < numbers.size <;> simp [hlt]
      · have hne : ¬ i = s := fun e => hs e.symm
        simp [hs, hne]

theorem size_foldl_setIfInBounds (moved : List Nat) (fresh : Nat) (numbers : Array Nat) :
    (moved.foldl (fun numbers s => numbers.setIfInBounds s fresh) numbers).size = numbers.size := by
  induction moved generalizing numbers with
  | nil => rfl
  | cons s moved ih => exact (ih _).trans Array.size_setIfInBounds

/-- The partition in which a part of a block has become the last block.  The block keeps its
number for the other part. -/
def move (p : Partition) (number : Nat) (kept moved : StateSet) : Partition where
  blocks := (p.blocks.setIfInBounds number kept).push moved
  blockOf := moved.toList.foldl (fun blockOf s => blockOf.setIfInBounds s p.blocks.size) p.blockOf

@[simp] theorem size_blocks_move (p : Partition) (number : Nat) (kept moved : StateSet) :
    (p.move number kept moved).blocks.size = p.blocks.size + 1 := by
  simp [move]

theorem numberOf_move (valid : p.Valid size) {number i : Nat} (kept moved : StateSet)
    (hi : i < size) :
    (p.move number kept moved).numberOf i =
      if i ∈ moved then p.blocks.size else p.numberOf i := by
  rw [numberOf, move, Array.getD_eq_getD_getElem?, getElem?_foldl_setIfInBounds,
    valid.size_blockOf]
  simp only [Std.ExtTreeSet.mem_toList]
  by_cases hm : i ∈ moved
  · rw [if_pos ⟨hm, hi⟩, if_pos hm]
    rfl
  · rw [if_neg fun h => hm h.1, if_neg hm, numberOf, Array.getD_eq_getD_getElem?]

theorem block_move {number : Nat} (hnumber : number < p.blocks.size) (kept moved : StateSet)
    (b : Nat) :
    (p.move number kept moved).block b =
      if b = p.blocks.size then moved else if b = number then kept else p.block b := by
  rw [block, block, move, Array.getD_eq_getD_getElem?, Array.getD_eq_getD_getElem?,
    Array.getElem?_push, Array.size_setIfInBounds]
  by_cases hb : b = p.blocks.size
  · rw [if_pos hb, if_pos hb]
    rfl
  · rw [if_neg hb, if_neg hb, Array.getElem?_setIfInBounds]
    by_cases hn : number = b
    · rw [if_pos hn, if_pos hn.symm, if_pos hnumber]
      rfl
    · rw [if_neg hn, if_neg fun e => hn e.symm]

/-- `p.Divides number kept moved`: a block is divided into two parts, neither of them empty.
Nothing is said of which is smaller, as this matters to the running time only. -/
structure Divides (p : Partition) (number : Nat) (kept moved : StateSet) : Prop where
  number_lt : number < p.blocks.size
  cover : ∀ i, i ∈ p.block number ↔ i ∈ kept ∨ i ∈ moved
  disjoint : ∀ i, i ∈ kept → i ∉ moved
  exists_kept : ∃ i, i ∈ kept
  exists_moved : ∃ i, i ∈ moved

section Move

variable {number : Nat} {kept moved : StateSet}

theorem Divides.numberOf_eq (divides : p.Divides number kept moved) (valid : p.Valid size)
    {i : Nat} (hi : i ∈ moved) : i < size ∧ p.numberOf i = number := by
  obtain ⟨hlt, -, hnum⟩ := (valid.mem_block number i).1 ((divides.cover i).2 (Or.inr hi))
  exact ⟨hlt, hnum⟩

theorem Divides.symm (divides : p.Divides number kept moved) : p.Divides number moved kept where
  number_lt := divides.number_lt
  cover i := (divides.cover i).trans Or.comm
  disjoint i hm hk := divides.disjoint i hk hm
  exists_kept := divides.exists_moved
  exists_moved := divides.exists_kept

/-- The indices of all other blocks keep their numbers, and so does the part that does not move. -/
theorem Divides.numberOf_move_of_ne (divides : p.Divides number kept moved)
    (valid : p.Valid size) {i : Nat} (hi : i < size) (hne : p.numberOf i ≠ number) :
    (p.move number kept moved).numberOf i = p.numberOf i :=
  (numberOf_move valid kept moved hi).trans
    (if_neg fun hm => hne (divides.numberOf_eq valid hm).2)

theorem size_blockOf_move (p : Partition) (number : Nat) (kept moved : StateSet) :
    (p.move number kept moved).blockOf.size = p.blockOf.size :=
  size_foldl_setIfInBounds _ _ _

/-- The new block holds the moved indices, and every other block what it held without them. -/
theorem mem_block_move (valid : p.Valid size) (divides : p.Divides number kept moved)
    {b i : Nat} :
    i ∈ (p.move number kept moved).block b ↔
      if b = p.blocks.size then i ∈ moved else i ∈ p.block b ∧ i ∉ moved := by
  rw [block_move divides.number_lt]
  by_cases hfresh : b = p.blocks.size
  · rw [if_pos hfresh, if_pos hfresh]
  · rw [if_neg hfresh, if_neg hfresh]
    by_cases hb : b = number
    · subst hb
      rw [if_pos rfl, divides.cover]
      constructor
      · exact fun hi => ⟨Or.inl hi, divides.disjoint i hi⟩
      · exact fun hi => hi.1.resolve_right hi.2
    · rw [if_neg hb]
      refine ⟨fun hi => ⟨hi, fun hm => hb ?_⟩, And.left⟩
      exact ((valid.mem_block b i).1 hi).2.2.symm.trans (divides.numberOf_eq valid hm).2

/-- Moving a part of a block leaves a valid partition.  Were one of the parts empty, it would
not. -/
theorem valid_move (valid : p.Valid size) (divides : p.Divides number kept moved) :
    (p.move number kept moved).Valid size := by
  have newNumber : ∀ i, i < size → (p.move number kept moved).numberOf i =
      if i ∈ moved then p.blocks.size else p.numberOf i :=
    fun i hi => numberOf_move valid kept moved hi
  refine ⟨(size_blockOf_move ..).trans valid.size_blockOf, fun i hi => ?_, fun b i => ?_,
    fun b hb => ?_⟩
  · have := valid.number_lt i hi
    rw [newNumber i hi, size_blocks_move]
    split <;> omega
  -- an index is in the new block iff it was moved, and it has the number of that block then
  · rw [mem_block_move valid divides, size_blocks_move]
    by_cases hfresh : b = p.blocks.size
    · rw [if_pos hfresh]
      constructor
      · intro hi
        have hlt := (divides.numberOf_eq valid hi).1
        exact ⟨hlt, by omega, by rw [newNumber i hlt, if_pos hi, hfresh]⟩
      · rintro ⟨hlt, -, hnum⟩
        by_contra hm
        rw [newNumber i hlt, if_neg hm] at hnum
        have := valid.number_lt i hlt
        omega
    · rw [if_neg hfresh, valid.mem_block b i]
      constructor
      · rintro ⟨⟨hlt, hb, hnum⟩, hm⟩
        exact ⟨hlt, by omega, by rw [newNumber i hlt, if_neg hm, hnum]⟩
      · rintro ⟨hlt, -, hnum⟩
        rw [newNumber i hlt] at hnum
        by_cases hm : i ∈ moved
        · rw [if_pos hm] at hnum
          exact absurd hnum.symm hfresh
        · rw [if_neg hm] at hnum
          exact ⟨⟨hlt, hnum ▸ valid.number_lt i hlt, hnum⟩, hm⟩
  · rw [size_blocks_move] at hb
    rw [block_move divides.number_lt]
    by_cases hfresh : b = p.blocks.size
    · rw [if_pos hfresh]
      exact divides.exists_moved
    · rw [if_neg hfresh]
      by_cases hn : b = number
      · rw [if_pos hn]
        exact divides.exists_kept
      · rw [if_neg hn]
        exact valid.nonempty b (by omega)

/-- **Moving a part of a block to a new block** splits that block by the part. -/
theorem splits_move (valid : p.Valid size) (divides : p.Divides number kept moved) :
    Splits size p (· ∈ moved) (p.move number kept moved) := by
  have newNumber : ∀ i, i < size → (p.move number kept moved).numberOf i =
      if i ∈ moved then p.blocks.size else p.numberOf i :=
    fun i hi => numberOf_move valid kept moved hi
  refine ⟨valid_move valid divides, ?_, fun i j hi hj => ?_, fun i hi hlt => ?_⟩
  · rw [size_blocks_move]
    exact Nat.le_succ _
  · rw [newNumber i hi, newNumber j hj]
    -- the new number is above all the old ones, so it is shared by moved indices only
    have hne : p.numberOf i ≠ p.blocks.size := Nat.ne_of_lt (valid.number_lt i hi)
    have hne' : p.blocks.size ≠ p.numberOf j := Nat.ne_of_gt (valid.number_lt j hj)
    by_cases hmi : i ∈ moved
    · by_cases hmj : j ∈ moved
      · simp [hmi, hmj, (divides.numberOf_eq valid hmi).2, (divides.numberOf_eq valid hmj).2]
      · simp [hmi, hmj, hne']
    · by_cases hmj : j ∈ moved
      · simp [hmi, hmj, hne]
      · simp [hmi, hmj]
  · rw [newNumber i hi] at hlt ⊢
    by_cases hm : i ∈ moved
    · rw [if_pos hm] at hlt
      exact absurd hlt (Nat.lt_irrefl _)
    · rw [if_neg hm]

end Move

/-! ### Splitting -/

/-- Only how the indices of one block are divided matters for a split, and it does not matter
which of the two parts is called the inside. -/
theorem Splits.congr {inside inside' : Nat → Prop} (h : Splits size p inside q)
    (same : ∀ i j, i < size → j < size → p.numberOf i = p.numberOf j →
      ((inside i ↔ inside j) ↔ (inside' i ↔ inside' j))) : Splits size p inside' q where
  valid := h.valid
  size_le := h.size_le
  eq_iff i j hi hj := (h.eq_iff i j hi hj).trans
    ⟨fun e => ⟨e.1, (same i j hi hj e.1).1 e.2⟩, fun e => ⟨e.1, (same i j hi hj e.1).2 e.2⟩⟩
  kept := h.kept

theorem Splits.refl (valid : p.Valid size) {inside : Nat → Prop}
    (whole : ∀ i j, i < size → j < size → p.numberOf i = p.numberOf j → (inside i ↔ inside j)) :
    Splits size p inside p where
  valid := valid
  size_le := Nat.le_refl _
  eq_iff i j hi hj := ⟨fun e => ⟨e, whole i j hi hj e⟩, And.left⟩
  kept _ _ _ := rfl

/-- The larger part of a divided block keeps its number.  In this form the three outcomes of
splitting a block are two, since both divisions are a `move`. -/
theorem splitBlock_eq (p : Partition) (number : Nat) (inside : StateSet) :
    p.splitBlock number inside =
      if (p.block number).size ≤ inside.size then p
      else if (p.block number \ inside).size ≤ inside.size then
        p.move number inside (p.block number \ inside)
      else p.move number (p.block number \ inside) inside := by
  unfold splitBlock
  refine if_congr Iff.rfl rfl ?_
  by_cases hlarge : (p.block number \ inside).size ≤ inside.size
  · simp only [hlarge, if_true]
    rfl
  · simp only [hlarge, if_false]
    rfl

/-- **Splitting one block** splits it and leaves the numbers of all other indices alone.  The
latter is what lets several blocks be split one after another. -/
theorem splitBlock_spec (valid : p.Valid size) {number : Nat} (hnumber : number < p.blocks.size)
    {inside : StateSet} (hsub : ∀ i ∈ inside, i ∈ p.block number) (hne : ∃ i, i ∈ inside) :
    Splits size p (· ∈ inside) (p.splitBlock number inside) ∧
      ∀ i, i < size → p.numberOf i ≠ number →
        (p.splitBlock number inside).numberOf i = p.numberOf i := by
  have within : ∀ i, i < size → i ∈ inside → p.numberOf i = number := fun i _ h =>
    ((valid.mem_block number i).1 (hsub i h)).2.2
  rw [splitBlock_eq]
  by_cases hsize : (p.block number).size ≤ inside.size
  · -- all of the block is inside
    rw [if_pos hsize]
    refine ⟨Splits.refl valid fun i j hi hj heq => ?_, fun _ _ _ => rfl⟩
    have all : ∀ i, i < size → p.numberOf i = number → i ∈ inside := fun i hi h =>
      mem_of_size_le hsub hsize ((valid.mem_block number i).2 ⟨hi, hnumber, h⟩)
    exact ⟨fun h => all j hj (heq ▸ within i hi h), fun h => all i hi (heq ▸ within j hj h)⟩
  · rw [if_neg hsize]
    have hout : ∃ i, i ∈ p.block number \ inside := by
      by_contra hnone
      refine hsize (size_le_of_subset fun i hi => ?_)
      by_contra hni
      exact hnone ⟨i, Std.ExtTreeSet.mem_diff_iff.2 ⟨hi, hni⟩⟩
    have divides : p.Divides number inside (p.block number \ inside) := by
      refine ⟨hnumber, fun i => ?_, fun i h h' => (Std.ExtTreeSet.mem_diff_iff.1 h').2 h, hne, hout⟩
      rw [Std.ExtTreeSet.mem_diff_iff]
      by_cases h : i ∈ inside
      · simp [h, hsub i h]
      · simp [h]
    -- the larger part keeps the number
    by_cases hlarge : (p.block number \ inside).size ≤ inside.size
    · rw [if_pos hlarge]
      refine ⟨(splits_move valid divides).congr fun i j hi hj heq => ?_,
        fun i hi hnum => divides.numberOf_move_of_ne valid hi hnum⟩
      simp only [Std.ExtTreeSet.mem_diff_iff, valid.mem_block]
      by_cases h : p.numberOf i = number
      · simp only [hi, hj, hnumber, h, ← heq, true_and]
        exact not_iff_not
      · have hi' : i ∉ inside := fun hm => h (within i hi hm)
        have hj' : j ∉ inside := fun hm => h (heq.trans (within j hj hm))
        simp [h, hi', hj', ← heq]
    · rw [if_neg hlarge]
      exact ⟨splits_move valid divides.symm,
        fun i hi hnum => divides.symm.numberOf_move_of_ne valid hi hnum⟩

/-- The group of a block holds those of the indices that are in the block. -/
theorem mem_group (p : Partition) (indices : List Nat) (n i : Nat) :
    i ∈ (p.group indices)[n]?.getD ∅ ↔ i ∈ indices ∧ p.numberOf i = n := by
  unfold group
  induction indices using List.reverseRecOn with
  | nil => simp
  | append_singleton indices s ih =>
      rw [List.foldl_append, List.foldl_cons, List.foldl_nil, Std.ExtTreeMap.getElem?_alter]
      by_cases hn : p.numberOf s = n
      · subst hn
        rw [if_pos Std.ReflCmp.compare_self, Option.getD_some, Std.ExtTreeSet.mem_insert,
          Nat.compare_eq_eq, ih, List.mem_append, List.mem_singleton]
        constructor
        · rintro (rfl | ⟨h, hnum⟩)
          · exact ⟨Or.inr rfl, rfl⟩
          · exact ⟨Or.inl h, hnum⟩
        · rintro ⟨h | rfl, hnum⟩
          · exact Or.inr ⟨h, hnum⟩
          · exact Or.inl rfl
      · rw [if_neg (by rwa [Nat.compare_eq_eq]), ih, List.mem_append, List.mem_singleton]
        constructor
        · exact fun h => ⟨Or.inl h.1, h.2⟩
        · rintro ⟨h | rfl, hnum⟩
          · exact ⟨h, hnum⟩
          · exact absurd hnum hn

/-- No group is empty, as a group is begun with an index. -/
theorem exists_mem_of_group {indices : List Nat} {n : Nat} {g : StateSet}
    (h : (p.group indices)[n]? = some g) : ∃ i, i ∈ g := by
  unfold group at h
  induction indices using List.reverseRecOn generalizing g with
  | nil => simp at h
  | append_singleton indices s ih =>
      rw [List.foldl_append, List.foldl_cons, List.foldl_nil, Std.ExtTreeMap.getElem?_alter] at h
      split at h
      · cases h
        exact ⟨s, Std.ExtTreeSet.mem_insert_self⟩
      · exact ih h

/-- `p.Parts groups`: the groups are parts of different blocks, none of them empty.  Being
different, they can be split in any order. -/
structure Parts (p : Partition) (groups : List (Nat × StateSet)) : Prop where
  distinct : (groups.map (·.1)).Nodup
  number_lt : ∀ g ∈ groups, g.1 < p.blocks.size
  subset : ∀ g ∈ groups, ∀ i ∈ g.2, i ∈ p.block g.1
  nonempty : ∀ g ∈ groups, ∃ i, i ∈ g.2

/-- The groups of other blocks are parts of the same blocks once a block has been split.  This is
the step of the induction over groups. -/
theorem Parts.splitBlock {g : Nat × StateSet} {groups : List (Nat × StateSet)}
    (parts : p.Parts (g :: groups)) (valid : p.Valid size) :
    Splits size p (· ∈ g.2) (p.splitBlock g.1 g.2) ∧ (p.splitBlock g.1 g.2).Parts groups := by
  have self : g ∈ g :: groups := List.mem_cons_self
  have rest : ∀ {g'}, g' ∈ groups → g' ∈ g :: groups := List.mem_cons_of_mem g
  obtain ⟨hnotin, distinct⟩ := List.nodup_cons.1 parts.distinct
  obtain ⟨first, untouched⟩ := splitBlock_spec valid (parts.number_lt g self)
    (parts.subset g self) (parts.nonempty g self)
  have number_lt : ∀ g' ∈ groups, g'.1 < (p.splitBlock g.1 g.2).blocks.size := fun g' hg' =>
    (parts.number_lt g' (rest hg')).trans_le first.size_le
  refine ⟨first, distinct, number_lt, fun g' hg' i hi => ?_,
    fun g' hg' => parts.nonempty g' (rest hg')⟩
  obtain ⟨hi, -, hnum⟩ := (valid.mem_block g'.1 i).1 (parts.subset g' (rest hg') i hi)
  have hne : p.numberOf i ≠ g.1 := fun heq =>
    hnotin (List.mem_map.2 ⟨g', hg', hnum.symm.trans heq⟩)
  exact (first.valid.mem_block g'.1 i).2
    ⟨hi, number_lt g' hg', (untouched i hi hne).trans hnum⟩

/-- Splitting several blocks one after another splits each of them by its own group, and hence all
of them by all groups together. -/
theorem Parts.splits_foldl {groups : List (Nat × StateSet)} (parts : p.Parts groups)
    (valid : p.Valid size) :
    Splits size p (fun i => ∃ g ∈ groups, i ∈ g.2)
      (groups.foldl (fun p g => p.splitBlock g.1 g.2) p) := by
  induction groups generalizing p with
  | nil => exact Splits.refl valid fun i j _ _ _ => by simp
  | cons g groups ih =>
      obtain ⟨first, others⟩ := parts.splitBlock valid
      have rest := ih others first.valid
      refine ⟨rest.valid, Nat.le_trans first.size_le rest.size_le, fun i j hi hj => ?_,
        fun i hi hlt => ?_⟩
      · rw [List.foldl_cons, rest.eq_iff i j hi hj, first.eq_iff i j hi hj, and_assoc]
        refine and_congr_right fun heq => ?_
        -- the other groups are in other blocks
        have alone : ∀ i, p.numberOf i = g.1 → ¬ ∃ g' ∈ groups, i ∈ g'.2 := by
          rintro i hnum ⟨g', hg', hmem⟩
          have := (valid.mem_block g'.1 i).1 (parts.subset g' (List.mem_cons_of_mem _ hg') i hmem)
          exact (List.nodup_cons.1 parts.distinct).1
            (List.mem_map.2 ⟨g', hg', this.2.2.symm.trans hnum⟩)
        have outside : ∀ i, p.numberOf i ≠ g.1 → i ∉ g.2 := fun i hnum hmem =>
          hnum ((valid.mem_block g.1 i).1 (parts.subset g List.mem_cons_self i hmem)).2.2
        simp only [List.exists_mem_cons_iff]
        by_cases hnum : p.numberOf i = g.1
        · simp only [alone i hnum, alone j (heq ▸ hnum), or_false, iff_self, and_true]
        · simp only [outside i hnum, outside j (heq ▸ hnum), false_or, iff_self, true_and]
      · have hq := rest.kept i hi (Nat.lt_of_lt_of_le hlt first.size_le)
        rw [List.foldl_cons] at hlt ⊢
        rw [hq] at hlt ⊢
        exact first.kept i hi hlt

theorem mem_of_mem_group {indices : List Nat} {g : Nat × StateSet}
    (hg : g ∈ (p.group indices).toList) (i : Nat) :
    i ∈ g.2 ↔ i ∈ indices ∧ p.numberOf i = g.1 := by
  have h := Std.ExtTreeMap.mem_toList_iff_getElem?_eq_some.1 hg
  rw [← mem_group, h]
  rfl

/-- The groups of some indices are parts of the blocks that they are in, which is where they come
from. -/
theorem parts_group (valid : p.Valid size) {indices : List Nat} (hlt : ∀ i ∈ indices, i < size) :
    p.Parts (p.group indices).toList where
  distinct := List.pairwise_map.2 ((p.group indices).distinct_keys_toList.imp fun h e =>
    h (by rw [e]; exact Std.ReflCmp.compare_self))
  number_lt g hg := by
    obtain ⟨i, hi⟩ := exists_mem_of_group (Std.ExtTreeMap.mem_toList_iff_getElem?_eq_some.1 hg)
    obtain ⟨hmem, hnum⟩ := (mem_of_mem_group hg i).1 hi
    exact hnum ▸ valid.number_lt i (hlt i hmem)
  subset g hg i hi := by
    obtain ⟨hmem, hnum⟩ := (mem_of_mem_group hg i).1 hi
    exact (valid.mem_block g.1 i).2 ⟨hlt i hmem, hnum ▸ valid.number_lt i (hlt i hmem), hnum⟩
  nonempty _ hg := exists_mem_of_group (Std.ExtTreeMap.mem_toList_iff_getElem?_eq_some.1 hg)

/-- **Splitting all blocks by some indices** splits each block by whether its indices are among
them.  Blocks without such an index are not touched, and are split into themselves. -/
theorem splitAll_spec (valid : p.Valid size) {indices : List Nat}
    (hlt : ∀ i ∈ indices, i < size) : Splits size p (· ∈ indices) (p.splitAll indices) := by
  have split := (parts_group valid hlt).splits_foldl valid
  have same : ∀ i, (∃ g ∈ (p.group indices).toList, i ∈ g.2) ↔ i ∈ indices := by
    intro i
    constructor
    · rintro ⟨g, hg, hi⟩
      exact ((mem_of_mem_group hg i).1 hi).1
    · intro hi
      have hmem := (mem_group p indices (p.numberOf i) i).2 ⟨hi, rfl⟩
      cases hg : (p.group indices)[p.numberOf i]? with
      | none =>
          rw [hg] at hmem
          exact absurd hmem Std.ExtTreeSet.not_mem_empty
      | some g =>
          rw [hg] at hmem
          exact ⟨(p.numberOf i, g), Std.ExtTreeMap.mem_toList_iff_getElem?_eq_some.2 hg, hmem⟩
  exact split.congr fun i j _ _ _ => by rw [same i, same j]

/-! ### Rounds -/

/-- The indices that move to an index under a symbol.  They are on file, so a round need not go
through all indices. -/
theorem mem_inverse {place i target : Nat} (htarget : target < t.size) :
    i ∈ (t.inverse place).getD target [] ↔ i < t.size ∧ t.step i place = target := by
  -- by induction on the indices entered so far, with the array they are entered into left open
  have fold : ∀ (indices : List Nat) (entered : Array (List Nat)), target < entered.size →
      (i ∈ (indices.foldl (fun entered s => entered.modify (t.step s place) (s :: ·))
          entered).getD target [] ↔
        (i ∈ indices ∧ t.step i place = target) ∨ i ∈ entered.getD target []) := by
    intro indices
    induction indices with
    | nil => simp
    | cons s indices ih =>
        intro entered hlt
        rw [List.foldl_cons, ih _ (by rwa [Array.size_modify]), List.mem_cons]
        simp only [Array.getD_eq_getD_getElem?, Array.getElem?_modify]
        by_cases hs : t.step s place = target
        · rw [if_pos hs, Array.getElem?_eq_getElem hlt]
          simp only [Option.map_some, Option.getD_some, List.mem_cons]
          constructor
          · rintro (h | rfl | h)
            · exact Or.inl ⟨Or.inr h.1, h.2⟩
            · exact Or.inl ⟨Or.inl rfl, hs⟩
            · exact Or.inr h
          · rintro (⟨rfl | h, hstep⟩ | h)
            · exact Or.inr (Or.inl rfl)
            · exact Or.inl ⟨h, hstep⟩
            · exact Or.inr (Or.inr h)
        · rw [if_neg hs]
          constructor
          · rintro (h | h)
            · exact Or.inl ⟨Or.inr h.1, h.2⟩
            · exact Or.inr h
          · rintro (⟨rfl | h, hstep⟩ | h)
            · exact absurd hstep hs
            · exact Or.inl ⟨h, hstep⟩
            · exact Or.inr h
  rw [Table.inverse, fold _ _ (by simpa using htarget), List.mem_range]
  simp [Array.getD_eq_getD_getElem?, htarget]

theorem mem_splitters {symbols first last : Nat} {s : Splitter} :
    s ∈ splitters symbols first last ↔ first ≤ s.1 ∧ s.1 < last ∧ s.2 < symbols := by
  obtain ⟨b, a⟩ := s
  simp only [splitters, List.mem_flatMap, List.mem_map, List.mem_range, List.mem_range'_1,
    Prod.mk.injEq]
  constructor
  · rintro ⟨b', ⟨hlo, hhi⟩, a', ha, rfl, rfl⟩
    exact ⟨hlo, by omega, ha⟩
  · rintro ⟨hlo, hhi, ha⟩
    exact ⟨b, ⟨hlo, by omega⟩, a, ha, rfl, rfl⟩

theorem length_splitters (symbols first last : Nat) :
    (splitters symbols first last).length = (last - first) * symbols := by
  simp [splitters, List.length_flatMap]

/-- What holds of a partition and its pending splitters before and after every round.  The
invariant mentions the pending splitters as a set, so it does not depend on their order. -/
structure Refining (t : Table) (pending : List Splitter) (p : Partition) : Prop where
  valid : p.Valid t.size
  /-- Indices from which the same words are accepted have not been parted. -/
  together : ∀ i j, i < t.size → j < t.size → t.Alike i j → p.numberOf i = p.numberOf j
  /-- Accepting indices are not together with others. -/
  uniform : ∀ i j, i < t.size → j < t.size → p.numberOf i = p.numberOf j →
    t.accepts i = t.accepts j
  /-- Where a block moves into two blocks, one of these is pending. -/
  splitter : ∀ i j a, i < t.size → j < t.size → a < t.symbols.length →
    p.numberOf i = p.numberOf j → p.numberOf (t.step i a) ≠ p.numberOf (t.step j a) →
    (p.numberOf (t.step i a), a) ∈ pending ∨ (p.numberOf (t.step j a), a) ∈ pending
  place_lt : ∀ s ∈ pending, s.2 < t.symbols.length

/-- **A round keeps the invariant**: all blocks are split by what moves into the block of a
splitter, and the new blocks become pending with every symbol.  It does not matter where on the
list.  Two indices that are still together moved both into the block of the splitter or neither,
which is why this splitter need not be pending any more. -/
theorem Refining.of_splits (sound : t.Sound) {number place : Nat} {rest pending : List Splitter}
    (inv : Refining t ((number, place) :: rest) p) {inside : Nat → Prop}
    (split : Splits t.size p inside q)
    (hinside : ∀ i, i < t.size → (inside i ↔ p.numberOf (t.step i place) = number))
    (hpending : ∀ s, s ∈ pending ↔
      s ∈ splitters t.symbols.length p.blocks.size q.blocks.size ∨ s ∈ rest) :
    Refining t pending q := by
  have hplace : place < t.symbols.length := inv.place_lt _ List.mem_cons_self
  refine ⟨split.valid, fun i j hi hj alike => ?_, fun i j hi hj heq => ?_,
    fun i j a hi hj ha heq hne => ?_, fun s hs => ?_⟩
  · refine (split.eq_iff i j hi hj).2 ⟨inv.together i j hi hj alike, ?_⟩
    have hmoved := inv.together _ _ (sound.step_lt i hi place hplace)
      (sound.step_lt j hj place hplace) (alike.step sound hplace)
    rw [hinside i hi, hinside j hj, hmoved]
  · exact inv.uniform i j hi hj ((split.eq_iff i j hi hj).1 heq).1
  · obtain ⟨heq, hboth⟩ := (split.eq_iff i j hi hj).1 heq
    have hx := sound.step_lt i hi a ha
    have hy := sound.step_lt j hj a ha
    by_cases hxnew : p.blocks.size ≤ q.numberOf (t.step i a)
    · refine Or.inl ((hpending _).2 (Or.inl (mem_splitters.2 ⟨hxnew, ?_, ha⟩)))
      exact split.valid.number_lt _ hx
    by_cases hynew : p.blocks.size ≤ q.numberOf (t.step j a)
    · refine Or.inr ((hpending _).2 (Or.inl (mem_splitters.2 ⟨hynew, ?_, ha⟩)))
      exact split.valid.number_lt _ hy
    -- both targets keep their numbers, so one of their blocks was pending before
    have hxold := split.kept _ hx (Nat.lt_of_not_le hxnew)
    have hyold := split.kept _ hy (Nat.lt_of_not_le hynew)
    rw [hxold, hyold] at hne ⊢
    rcases inv.splitter i j a hi hj ha heq hne with h | h
    · rcases List.mem_cons.1 h with h | h
      · obtain ⟨hnum, rfl⟩ := Prod.mk.inj h
        have := (hinside j hj).1 (hboth.1 ((hinside i hi).2 hnum))
        exact absurd (hnum.trans this.symm) hne
      · exact Or.inl ((hpending _).2 (Or.inr h))
    · rcases List.mem_cons.1 h with h | h
      · obtain ⟨hnum, rfl⟩ := Prod.mk.inj h
        have := (hinside i hi).1 (hboth.2 ((hinside j hj).2 hnum))
        exact absurd (this.trans hnum.symm) hne
      · exact Or.inr ((hpending _).2 (Or.inr h))
  · rcases (hpending s).1 hs with hs | hs
    · exact (mem_splitters.1 hs).2.2
    · exact inv.place_lt s (List.mem_cons_of_mem _ hs)

/-- What the new blocks add to the list is taken from what may still be added.  So the sum of the
two only goes down by the splitter that is used. -/
theorem pending_add_left {symbols blocks more pending : Nat} (hgrow : blocks ≤ more)
    (hbound : more ≤ size) :
    ((more - blocks) * symbols + pending) + (size - more) * symbols =
      pending + (size - blocks) * symbols := by
  have hsum : (more - blocks) * symbols + (size - more) * symbols = (size - blocks) * symbols := by
    rw [← Nat.add_mul]
    congr 1
    omega
  omega

/-- A round of the running refinement keeps the invariant, as it is one of those described above. -/
theorem Refining.step (sound : t.Sound) {number place : Nat} {rest : List Splitter}
    (inv : Refining t ((number, place) :: rest) p) {indices : List Nat}
    (hindices : ∀ i, i ∈ indices ↔ i < t.size ∧ p.numberOf (t.step i place) = number) :
    Refining t (splitters t.symbols.length p.blocks.size (p.splitAll indices).blocks.size ++ rest)
      (p.splitAll indices) :=
  inv.of_splits sound (splitAll_spec inv.valid fun i hi => ((hindices i).1 hi).1)
    (fun i hi => (hindices i).trans (and_iff_right hi)) fun _ => List.mem_append

/-- The indices that move into a block under a symbol, collected from what is on file for each
index of the block. -/
theorem mem_flatMap_entered (valid : p.Valid t.size) (sound : t.Sound) {number place i : Nat}
    (hplace : place < t.symbols.length) {entered : Nat → List Nat}
    (hentered : ∀ target, target < t.size →
      ∀ i, i ∈ entered target ↔ i < t.size ∧ t.step i place = target) :
    i ∈ (p.block number).toList.flatMap entered ↔
      i < t.size ∧ p.numberOf (t.step i place) = number := by
  simp only [List.mem_flatMap, Std.ExtTreeSet.mem_toList, valid.mem_block]
  constructor
  · rintro ⟨target, ⟨htarget, -, hnum⟩, hi⟩
    obtain ⟨hlt, rfl⟩ := (hentered target htarget i).1 hi
    exact ⟨hlt, hnum⟩
  · rintro ⟨hi, hnum⟩
    have htarget := sound.step_lt i hi place hplace
    exact ⟨_, ⟨htarget, hnum ▸ valid.number_lt _ htarget, hnum⟩,
      (hentered _ htarget i).2 ⟨hi, rfl⟩⟩

/-- **Enough rounds use up the list of splitters.**  The bound counts those that are pending and
those of all blocks that can still be made. -/
theorem Refining.use (sound : t.Sound) {entered : Nat → Nat → List Nat}
    (hentered : ∀ place, place < t.symbols.length → ∀ target, target < t.size →
      ∀ i, i ∈ entered place target ↔ i < t.size ∧ t.step i place = target)
    {rounds : Nat} {pending : List Splitter} (inv : Refining t pending p)
    (enough : pending.length + (t.size - p.blocks.size) * t.symbols.length ≤ rounds) :
    Refining t [] (Partition.use t.symbols.length entered rounds pending p) := by
  induction rounds generalizing pending p with
  | zero =>
      obtain rfl : pending = [] := List.eq_nil_of_length_eq_zero (by omega)
      exact inv
  | succ rounds ih =>
      cases pending with
      | nil => exact inv
      | cons s rest =>
          obtain ⟨number, place⟩ := s
          have hplace : place < t.symbols.length := inv.place_lt _ List.mem_cons_self
          have hindices : ∀ i, i ∈ (p.block number).toList.flatMap (entered place) ↔
              i < t.size ∧ p.numberOf (t.step i place) = number :=
            fun _ => mem_flatMap_entered inv.valid sound hplace (hentered place hplace)
          have next := inv.step sound hindices
          refine ih next ?_
          have hgrow := (splitAll_spec inv.valid fun i hi => ((hindices i).1 hi).1).size_le
          have hbound := next.valid.size_le
          rw [List.length_append, length_splitters, pending_add_left hgrow hbound]
          rw [List.length_cons] at enough
          omega

theorem mem_ofList_filter_range {f : Nat → Bool} {i : Nat} :
    i ∈ StateSet.ofList ((List.range size).filter f) ↔ i < size ∧ f i = true := by
  rw [StateSet.mem_ofList, List.mem_filter, List.mem_range]

/-- Disjoint blocks that hold all indices are a valid partition, once the empty ones are left out
and every index has the number of the first block that holds it. -/
theorem valid_of_blocks {blocks : List StateSet} (nonempty : ∀ b ∈ blocks, ∃ i, i ∈ b)
    (disjoint : blocks.Pairwise fun b b' => ∀ i ∈ b, i ∉ b')
    (cover : ∀ i, (∃ b ∈ blocks, i ∈ b) ↔ i < size) :
    Valid size ⟨blocks.toArray,
      ((List.range size).map fun s => blocks.findIdx (·.contains s)).toArray⟩ := by
  have number_eq : ∀ i, i < size →
      numberOf ⟨blocks.toArray,
        ((List.range size).map fun s => blocks.findIdx (·.contains s)).toArray⟩ i =
          blocks.findIdx (·.contains i) := by
    intro i hi
    simp [numberOf, Array.getD_eq_getD_getElem?, hi]
  have number_lt : ∀ i, i < size → blocks.findIdx (·.contains i) < blocks.length := by
    intro i hi
    obtain ⟨b, hb, hmem⟩ := (cover i).2 hi
    exact List.findIdx_lt_length_of_exists ⟨b, hb, Std.ExtTreeSet.contains_iff_mem.2 hmem⟩
  refine ⟨by simp, fun i hi => ?_, fun b i => ?_, fun b hb => ?_⟩
  · rw [number_eq i hi]
    simpa using number_lt i hi
  · simp only [block, Array.getD_eq_getD_getElem?, List.getElem?_toArray, List.size_toArray]
    constructor
    · intro hmem
      rcases Nat.lt_or_ge b blocks.length with hb | hb
      · rw [List.getElem?_eq_getElem hb] at hmem
        have hi : i < size := (cover i).1 ⟨_, List.getElem_mem hb, hmem⟩
        refine ⟨hi, hb, ?_⟩
        rw [number_eq i hi]
        have hfirst : i ∈ blocks.get ⟨blocks.findIdx (·.contains i), number_lt i hi⟩ :=
          Std.ExtTreeSet.contains_iff_mem.1 (List.findIdx_getElem (w := number_lt i hi))
        -- two blocks that hold the same index are the same
        rcases Nat.lt_trichotomy (blocks.findIdx (·.contains i)) b with h | h | h
        · exact absurd hmem (List.pairwise_iff_getElem.1 disjoint _ _ _ hb h i hfirst)
        · exact h
        · exact absurd hfirst (List.pairwise_iff_getElem.1 disjoint _ _ hb _ h i hmem)
      · rw [List.getElem?_eq_none hb] at hmem
        exact absurd hmem Std.ExtTreeSet.not_mem_empty
    · rintro ⟨hi, hb, hnum⟩
      rw [number_eq i hi] at hnum
      subst hnum
      rw [List.getElem?_eq_getElem hb]
      exact Std.ExtTreeSet.contains_iff_mem.1 (List.findIdx_getElem (w := hb))
  · have hlt : b < blocks.length := by simpa using hb
    simp only [block, Array.getD_eq_getD_getElem?, List.getElem?_toArray,
      List.getElem?_eq_getElem hlt]
    exact nonempty _ (List.getElem_mem hlt)

theorem not_isEmpty_iff {b : StateSet} : (!b.isEmpty) = true ↔ ∃ i, i ∈ b := by
  rw [Bool.not_eq_true', Std.ExtTreeSet.isEmpty_eq_false_iff]
  constructor
  · intro hne
    by_contra hnone
    exact hne (Std.ExtTreeSet.ext_mem fun i =>
      ⟨fun h => absurd ⟨i, h⟩ hnone, fun h => absurd h Std.ExtTreeSet.not_mem_empty⟩)
  · rintro ⟨i, hi⟩ rfl
    exact Std.ExtTreeSet.not_mem_empty hi

/-- The accepting indices of a table and the others.  Either may be empty, and is then no block. -/
def halves (t : Table) : List StateSet :=
  [StateSet.ofList ((List.range t.size).filter t.accepts),
    StateSet.ofList ((List.range t.size).filter fun s => !t.accepts s)]

theorem exists_of_mem_halves {b : StateSet} (hb : b ∈ halves t) :
    ∃ a, ∀ i, i ∈ b ↔ i < t.size ∧ t.accepts i = a := by
  rcases List.mem_pair.1 hb with rfl | rfl
  · exact ⟨true, fun i => mem_ofList_filter_range⟩
  · exact ⟨false, fun i => by rw [mem_ofList_filter_range, Bool.not_eq_true']⟩

theorem exists_mem_halves {i : Nat} (hi : i < t.size) : ∃ b ∈ halves t, i ∈ b := by
  cases hacc : t.accepts i with
  | true => exact ⟨_, List.mem_cons_self, mem_ofList_filter_range.2 ⟨hi, hacc⟩⟩
  | false =>
      exact ⟨_, List.mem_pair.2 (Or.inr rfl),
        mem_ofList_filter_range.2 ⟨hi, by rw [hacc]; rfl⟩⟩

theorem initial_valid (t : Table) : (initial t).Valid t.size := by
  refine valid_of_blocks (fun b hb => not_isEmpty_iff.1 (List.mem_filter.1 hb).2)
    (List.Pairwise.filter _ ?_) fun i => ?_
  · refine List.pairwise_pair.2 fun i hi hi' => ?_
    have hacc := (mem_ofList_filter_range.1 hi).2
    have hrej := (mem_ofList_filter_range.1 hi').2
    rw [hacc] at hrej
    cases hrej
  · constructor
    · rintro ⟨b, hb, hi⟩
      obtain ⟨a, ha⟩ := exists_of_mem_halves (List.mem_filter.1 hb).1
      exact ((ha i).1 hi).1
    · intro hi
      obtain ⟨b, hb, hmem⟩ := exists_mem_halves hi
      exact ⟨b, List.mem_filter.2 ⟨hb, not_isEmpty_iff.2 ⟨i, hmem⟩⟩, hmem⟩

/-- The block of an index holds the indices that accept as it does, and there is no other
condition at first. -/
theorem mem_block_initial {i j : Nat} (hi : i < t.size) (hj : j < t.size) :
    j ∈ (initial t).block ((initial t).numberOf i) ↔ t.accepts i = t.accepts j := by
  have hlt := (initial_valid t).number_lt i hi
  have hself := ((initial_valid t).mem_block _ i).2 ⟨hi, hlt, rfl⟩
  have hmem : (initial t).block ((initial t).numberOf i) ∈ halves t := by
    rw [block, Array.getD_eq_getD_getElem?, Array.getElem?_eq_getElem hlt]
    exact (List.mem_filter.1 (List.mem_toArray.1 (Array.getElem_mem hlt))).1
  obtain ⟨a, ha⟩ := exists_of_mem_halves hmem
  rw [ha] at hself
  rw [ha, hself.2]
  exact ⟨fun h => h.2.symm, fun h => ⟨hj, h.symm⟩⟩

/-- The first partition is that into accepting indices and others, said by the numbers of
indices. -/
theorem numberOf_initial_eq_iff {i j : Nat} (hi : i < t.size) (hj : j < t.size) :
    (initial t).numberOf i = (initial t).numberOf j ↔ t.accepts i = t.accepts j := by
  have valid := initial_valid t
  rw [← mem_block_initial hi hj, valid.mem_block]
  exact ⟨fun h => ⟨hj, valid.number_lt i hi, h.symm⟩, fun h => h.2.2.symm⟩

/-- Before the first round every block is pending with every symbol.  One of the two halves would
do, but nothing is lost. -/
theorem refining_initial (sound : t.Sound) :
    Refining t (splitters t.symbols.length 0 (initial t).blocks.size) (initial t) where
  valid := initial_valid t
  together _ _ hi hj alike := (numberOf_initial_eq_iff hi hj).2 (alike [])
  uniform _ _ hi hj heq := (numberOf_initial_eq_iff hi hj).1 heq
  splitter i _ a hi _ ha _ _ := Or.inl (mem_splitters.2
    ⟨Nat.zero_le _, (initial_valid t).number_lt _ (sound.step_lt i hi a ha), ha⟩)
  place_lt _ hs := (mem_splitters.1 hs).2.2

/-- Once nothing is pending, indices of one block accept the same words, by induction over the
word: blocks move into blocks, and the end of the word is accepted by all or by none. -/
theorem Refining.alike (inv : Refining t [] p) (sound : t.Sound) {i j : Nat} (hi : i < t.size)
    (hj : j < t.size) (heq : p.numberOf i = p.numberOf j) : t.Alike i j := by
  intro w
  induction w generalizing i j with
  | nil => exact inv.uniform i j hi hj heq
  | cons c w ih =>
      rw [Table.acceptsFrom, Table.acceptsFrom]
      cases hplace : t.symbols.idxOf? c with
      | none => rfl
      | some a =>
          have ha := (List.getElem?_eq_some_iff.1 (sound.idxOf?_eq_some_iff.1 hplace)).1
          refine ih (sound.step_lt i hi a ha) (sound.step_lt j hj a ha) ?_
          by_contra hne
          rcases inv.splitter i j a hi hj ha heq hne with h | h <;> cases h

/-- **The blocks of the finished partition** are the indices from which the same words are
accepted.  That the numbers are valid is part of it, since the rest would be empty for a partition
without blocks. -/
theorem refine_spec (sound : t.Sound) : (refine t).Valid t.size ∧
    ∀ i j, i < t.size → j < t.size →
      ((refine t).numberOf i = (refine t).numberOf j ↔ t.Alike i j) := by
  have inv : Refining t [] (refine t) := by
    refine Refining.use sound (fun place hplace target htarget i => ?_)
      (refining_initial sound) ?_
    · rw [← mem_inverse htarget]
      simp [Array.getD_eq_getD_getElem?, hplace]
    · rw [length_splitters, Nat.sub_zero, ← Nat.add_mul, Nat.mul_comm]
      have := (initial_valid t).size_le
      exact Nat.mul_le_mul_left _ (by omega)
  exact ⟨inv.valid, fun i j hi hj => ⟨inv.alike sound hi hj, inv.together i j hi hj⟩⟩

end PatternAutomata.Partition
