import PatternAutomata.StateSet.Store

/-!
# Laws of state stores

Every answer of a state store is an answer about the states that it contains.  This is what makes
one way of holding a set as good as another: whatever is computed from the answers alone is the
same for all of them.

## `contains` is the view

`LawfulStateStore` takes the question `contains` as what is known of a set.  The laws say what
each operation does to it and what every other question tells of it.  Capacities, widths and the
order of insertions do not occur in the laws, so nothing that is derived from them can depend on
these.  `StateStore.elements` turns a stored set into a `StateSet`, and by
`StateStore.mem_elements` the two have the same states; proofs pass to the sorted set at once and
stay there.

The instance for sorted sets is a list of library lemmas.  That for rows of bits has one law with
an argument in it: `DenseSet.same` compares lists that are read off up to the width, and
`DenseSet.toList_eq_of_le` lets both rows be read as if they had the greater of the two widths.
-/

namespace PatternAutomata

open StateStore

/-- The laws that every way of holding a set keeps.  There is one for every operation and every
question, so that a proof about an algorithm never opens the representation. -/
class LawfulStateStore (S : Type) [StateStore S] : Prop where
  contains_withCapacity : ∀ (states s : Nat), contains (withCapacity states : S) s = false
  contains_insert : ∀ (a : S) (state s : Nat),
    contains (insert a state) s = (decide (state = s) || contains a s)
  contains_union : ∀ (a b : S) (s : Nat), contains (union a b) s = (contains a s || contains b s)
  intersects_iff : ∀ a b : S,
    intersects a b = true ↔ ∃ s, contains a s = true ∧ contains b s = true
  isEmpty_iff : ∀ a : S, isEmpty a = true ↔ ∀ s, contains a s = false
  same_iff : ∀ a b : S, same a b = true ↔ ∀ s, contains a s = contains b s
  mem_toList : ∀ (a : S) (s : Nat), s ∈ toList a ↔ contains a s = true
  sorted_toList : ∀ a : S, (toList a).Pairwise (· < ·)

namespace StateStore

variable {S : Type} [StateStore S]

/-- The states of a stored set, in the form in which sets are reasoned about. -/
def elements (a : S) : StateSet :=
  .ofList (toList a)

variable [LawfulStateStore S]

theorem mem_elements {a : S} {s : Nat} : s ∈ elements a ↔ contains a s = true := by
  rw [elements, StateSet.mem_ofList, LawfulStateStore.mem_toList]

@[simp] theorem elements_insert (a : S) (state : Nat) :
    elements (insert a state) = (elements a).insert state := by
  ext s
  rw [mem_elements, LawfulStateStore.contains_insert, Std.ExtTreeSet.mem_insert,
    Nat.compare_eq_eq, mem_elements]
  simp

end StateStore

/-! ### Sparse sets -/

instance : LawfulStateStore StateSet where
  contains_withCapacity _ s := Std.ExtTreeSet.contains_empty
  contains_insert a state s := by
    show Std.ExtTreeSet.contains (Std.ExtTreeSet.insert a state) s =
      (decide (state = s) || Std.ExtTreeSet.contains a s)
    rw [Std.ExtTreeSet.contains_insert, Bool.eq_iff_iff]
    simp
  contains_union a b s := Std.ExtTreeSet.contains_union
  intersects_iff a b := by
    show StateSet.intersects a b = true ↔ _
    rw [StateSet.intersects_iff]
    rfl
  isEmpty_iff a := by
    show Std.ExtTreeSet.isEmpty a = true ↔ ∀ s, Std.ExtTreeSet.contains a s = false
    rw [Std.ExtTreeSet.isEmpty_iff, Std.ExtTreeSet.eq_empty_iff_forall_not_mem]
    simp only [← Std.ExtTreeSet.contains_iff_mem, Bool.not_eq_true]
  same_iff a b := by
    show (a == b) = true ↔ ∀ s, Std.ExtTreeSet.contains a s = Std.ExtTreeSet.contains b s
    rw [beq_iff_eq]
    constructor
    · intro h s
      rw [h]
    · intro h
      ext s
      rw [← Std.ExtTreeSet.contains_iff_mem, ← Std.ExtTreeSet.contains_iff_mem, h]
  mem_toList a s := by
    show s ∈ Std.ExtTreeSet.toList a ↔ Std.ExtTreeSet.contains a s = true
    rw [Std.ExtTreeSet.mem_toList, Std.ExtTreeSet.contains_iff_mem]
  sorted_toList a := a.ordered_toList.imp Nat.compare_eq_lt.1

/-! ### Dense sets -/

namespace DenseSet

theorem intersects_iff (a b : DenseSet) :
    a.intersects b = true ↔ ∃ s, a.contains s = true ∧ b.contains s = true := by
  simp only [contains_eq_testBit, ← Bool.and_eq_true, ← Nat.testBit_and]
  rw [intersects, bne_iff_ne]
  constructor
  · intro h
    exact Nat.exists_testBit_of_ne_zero h
  · rintro ⟨s, hs⟩ hzero
    rw [hzero, Nat.zero_testBit] at hs
    cases hs

theorem isEmpty_iff (a : DenseSet) : a.isEmpty = true ↔ ∀ s, a.contains s = false := by
  simp only [contains_eq_testBit]
  rw [isEmpty, beq_iff_eq]
  constructor
  · intro h s
    rw [h, Nat.zero_testBit]
  · intro h
    exact Nat.eq_of_testBit_eq fun s => by rw [h, Nat.zero_testBit]

theorem sorted_toList (a : DenseSet) : a.toList.Pairwise (· < ·) :=
  List.pairwise_lt_range.filter _

/-- A row may be read as if it were wider, since no bit is set beyond its width. -/
theorem toList_eq_of_le {a : DenseSet} {width : Nat} (h : a.width ≤ width) :
    a.toList = (List.range width).filter a.bits.testBit := by
  obtain ⟨more, rfl⟩ := Nat.exists_eq_add_of_le h
  have beyond : ((List.range more).map (a.width + ·)).filter a.bits.testBit = [] := by
    rw [List.filter_eq_nil_iff]
    intro s hs hbit
    obtain ⟨i, -, rfl⟩ := List.mem_map.1 hs
    have := a.lt_width _ hbit
    omega
  rw [List.range_add, List.filter_append, beyond, List.append_nil]
  rfl

/-- **Width is no matter of content**: rows that contain the same states are the same. -/
theorem same_iff (a b : DenseSet) : a.same b = true ↔ ∀ s, a.contains s = b.contains s := by
  rw [same, beq_iff_eq]
  constructor
  · intro h s
    rw [Bool.eq_iff_iff, ← mem_toList, ← mem_toList, h]
  · intro h
    have bits : a.bits = b.bits := Nat.eq_of_testBit_eq fun s => by
      rw [← contains_eq_testBit, ← contains_eq_testBit, h]
    rw [toList_eq_of_le (Nat.le_max_left a.width b.width),
      toList_eq_of_le (Nat.le_max_right a.width b.width), bits]

end DenseSet

instance : LawfulStateStore DenseSet where
  contains_withCapacity := DenseSet.contains_withCapacity
  contains_insert := DenseSet.contains_insert
  contains_union := DenseSet.contains_union
  intersects_iff := DenseSet.intersects_iff
  isEmpty_iff := DenseSet.isEmpty_iff
  same_iff := DenseSet.same_iff
  mem_toList _ _ := DenseSet.mem_toList
  sorted_toList := DenseSet.sorted_toList

end PatternAutomata
