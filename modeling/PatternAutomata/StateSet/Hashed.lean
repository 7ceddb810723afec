import Mathlib.Data.List.Perm.Subperm
import Mathlib.Data.List.Sort
import PatternAutomata.StateSet.Lawful

/-!
# Hashed sets of states

A set of states as the entries of a hash table.  A `HashedSet` has every state once, which its
structure vouches for, and it has them in an order of its own.

## The order that is not modelled

In a real table the order of the entries comes from their hashes, from the room in the table and
from the times at which it was laid out again.  None of this is kept here.  Instead a table may
have its entries in any order, and `HashedSet.rearranged` changes it to any other one, at any
time.  What is proved for every order then holds whatever a hash function does, and it is stronger
than a proof about one function would be.

## Comparison without sorting

`HashedSet.same` compares sizes and looks the entries of one table up in the other.  That this is
equality of content is `HashedSet.same_iff`, and it is the one law here that needs an argument: as
many entries, none of them twice, and those of the first among those of the second leave no entry
over in the second.  `HashedSet.intersects` looks up the entries of the smaller table, so its two
arguments are not treated alike although its answer is symmetric.
-/

namespace PatternAutomata

/-- The entries of a hash table, in the order in which they are gone through.  No entry occurs
twice, and the sizes that are compared depend on it. -/
structure HashedSet where
  entries : List Nat
  nodup : entries.Nodup

namespace HashedSet

variable {a b : HashedSet} {state s : Nat}

/-- An empty table.  The room in it is no part of its content. -/
def withCapacity (_ : Nat) : HashedSet := ⟨[], List.nodup_nil⟩

/-- Whether a state is in the table. -/
def contains (a : HashedSet) (state : Nat) : Bool :=
  a.entries.contains state

/-- The table with one more entry, if it does not have it. -/
def insert (a : HashedSet) (state : Nat) : HashedSet where
  entries := a.entries.insert state
  nodup := a.nodup.insert

/-- Whether a state is new to the table: there is no entry for it yet. -/
def isNew (a : HashedSet) (state : Nat) : Bool :=
  !a.entries.contains state

/-- The table with all entries of another one. -/
def union (a b : HashedSet) : HashedSet :=
  b.entries.foldl insert a

/-- The number of entries. -/
def size (a : HashedSet) : Nat :=
  a.entries.length

/-- Whether two tables have an entry in common.  The entries of the smaller one are looked up. -/
def intersects (a b : HashedSet) : Bool :=
  if a.size ≤ b.size then a.entries.any b.contains else b.entries.any a.contains

/-- Whether there are no entries. -/
def isEmpty (a : HashedSet) : Bool :=
  a.entries.isEmpty

/-- Whether two tables have the same entries: as many, and those of the first are in the second. -/
def same (a b : HashedSet) : Bool :=
  a.size == b.size && a.entries.all b.contains

/-- The states, ascending.  Sorting takes out the order of the entries, and with it all that is
left to chance. -/
def toList (a : HashedSet) : List Nat :=
  a.entries.mergeSort fun s t => s ≤ t

/-- The table laid out again, in whatever order the arrangement has for its turn. -/
def rearranged (order : Arrangement) (number : Nat) (a : HashedSet) : HashedSet where
  entries := order.arrange number a.entries
  nodup := (order.perm number a.entries).nodup_iff.2 a.nodup

theorem contains_iff : a.contains state = true ↔ state ∈ a.entries :=
  List.contains_iff_mem

theorem contains_insert (a : HashedSet) (state s : Nat) :
    (a.insert state).contains s = (decide (state = s) || a.contains s) := by
  rw [Bool.eq_iff_iff, contains_iff, insert, List.mem_insert_iff, Bool.or_eq_true,
    decide_eq_true_eq, contains_iff, eq_comm]

theorem mem_foldl_insert {entries : List Nat} :
    s ∈ (entries.foldl insert a).entries ↔ s ∈ a.entries ∨ s ∈ entries := by
  induction entries generalizing a with
  | nil => simp
  | cons state entries ih =>
      rw [List.foldl_cons, ih, insert, List.mem_insert_iff, List.mem_cons, or_assoc, or_left_comm]

theorem contains_union (a b : HashedSet) (s : Nat) :
    (a.union b).contains s = (a.contains s || b.contains s) := by
  rw [Bool.eq_iff_iff, contains_iff, union, mem_foldl_insert, Bool.or_eq_true, contains_iff,
    contains_iff]

/-- It does not matter whose entries are looked up. -/
theorem intersects_iff (a b : HashedSet) :
    a.intersects b = true ↔ ∃ s, a.contains s = true ∧ b.contains s = true := by
  unfold intersects
  split
  · simp only [List.any_eq_true, contains_iff]
  · simp only [List.any_eq_true, contains_iff, and_comm]

theorem isEmpty_iff (a : HashedSet) : a.isEmpty = true ↔ ∀ s, a.contains s = false := by
  simp only [← Bool.not_eq_true, contains_iff]
  rw [isEmpty, List.isEmpty_iff, List.eq_nil_iff_forall_not_mem]

/-- **The order of the entries is no matter of content**: tables that contain the same states are
the same. -/
theorem same_iff (a b : HashedSet) : a.same b = true ↔ ∀ s, a.contains s = b.contains s := by
  rw [same, Bool.and_eq_true, beq_iff_eq, List.all_eq_true]
  constructor
  · rintro ⟨hsize, hsub⟩ s
    -- as many entries, none of them twice: so there is none in `b` that is not in `a`
    have sub : a.entries ⊆ b.entries := fun s hs => contains_iff.1 (hsub s hs)
    have perm : a.entries.Perm b.entries :=
      (List.subperm_of_subset a.nodup sub).perm_of_length_le hsize.ge
    rw [Bool.eq_iff_iff, contains_iff, contains_iff, perm.mem_iff]
  · intro h
    have perm : a.entries.Perm b.entries :=
      (List.perm_ext_iff_of_nodup a.nodup b.nodup).2 fun s => by
        rw [← contains_iff, h, contains_iff]
    exact ⟨perm.length_eq, fun s hs => contains_iff.2 (perm.mem_iff.1 hs)⟩

theorem mem_toList (a : HashedSet) (s : Nat) : s ∈ a.toList ↔ a.contains s = true := by
  rw [toList, List.mem_mergeSort, contains_iff]

theorem nodup_toList (a : HashedSet) : a.toList.Nodup :=
  (List.mergeSort_perm a.entries _).nodup_iff.2 a.nodup

theorem sorted_toList (a : HashedSet) : a.toList.Pairwise (· < ·) := by
  have ascending : a.toList.Pairwise (· ≤ ·) := List.pairwise_mergeSort' (· ≤ ·) a.entries
  exact (ascending.and a.nodup_toList).imp fun h => Nat.lt_of_le_of_ne h.1 h.2

theorem size_eq (a : HashedSet) : a.size = a.toList.length :=
  (List.mergeSort_perm a.entries _).length_eq.symm

@[simp] theorem contains_rearranged (order : Arrangement) (number : Nat) (a : HashedSet) (s : Nat) :
    (a.rearranged order number).contains s = a.contains s := by
  rw [Bool.eq_iff_iff, contains_iff, contains_iff]
  exact (order.perm number a.entries).mem_iff

end HashedSet

instance : StateStore HashedSet where
  withCapacity := HashedSet.withCapacity
  insert := HashedSet.insert
  contains := HashedSet.contains
  union := HashedSet.union
  intersects := HashedSet.intersects
  isEmpty := HashedSet.isEmpty
  same := HashedSet.same
  toList := HashedSet.toList

instance : LawfulStateStore HashedSet where
  contains_withCapacity _ _ := rfl
  contains_insert := HashedSet.contains_insert
  contains_union := HashedSet.contains_union
  intersects_iff := HashedSet.intersects_iff
  isEmpty_iff := HashedSet.isEmpty_iff
  same_iff := HashedSet.same_iff
  mem_toList := HashedSet.mem_toList
  sorted_toList := HashedSet.sorted_toList

end PatternAutomata
