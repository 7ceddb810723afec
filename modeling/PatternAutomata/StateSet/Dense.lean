import PatternAutomata.StateSet.Basic

/-!
# Dense sets of states

A set of states as a row of bits, one for each state below the width of the row.  A `DenseSet`
carries the proof that no bit is set beyond its width, so a row that claims less room than it uses
cannot be built.  A row grows when a state beyond its width is inserted: the width is never a
reason to refuse a state.

## Width is storage, content is bits

Rows of different width with the same states count as the same set (`DenseSet.same`), and the key
under which a set is filed is the list of its states, in which no width occurs.  Comparing the
bits alone would do as well; that widths may differ for the same content is what a comparison of
stored rows, width and all, would get wrong.

The capacity is another matter.  `DenseSet.capacity` is what automata are held against before they
are built (`Strategy.check`).  The row itself knows it only as a bound on the room that is set
aside in advance.
-/

namespace PatternAutomata

/-- A row of bits.  Bit `i` of `bits` tells whether state `i` is in the set; all set bits lie
below `width`.  Without this law a state could be in the bits and be missing from the list of
states, which is read off below the width. -/
structure DenseSet where
  width : Nat
  bits : Nat
  lt_width : ∀ state, bits.testBit state = true → state < width

namespace DenseSet

/-- The most states that a row is made to hold.  Insertion goes beyond it where it is asked to; it
is the automata that are refused. -/
def capacity : Nat := 4096

/-- An empty row with room for `states` states, as far as the capacity goes. -/
def withCapacity (states : Nat) : DenseSet where
  width := min states capacity
  bits := 0
  lt_width := by simp

/-- Whether a state is in the set: its bit exists and is set.  The first half is implied by the
second (`contains_eq_testBit`) and is asked first since a row is only as long as its width. -/
def contains (a : DenseSet) (state : Nat) : Bool :=
  state < a.width && a.bits.testBit state

/-- The row with the bit of one more state set.  It grows to hold the state. -/
def insert (a : DenseSet) (state : Nat) : DenseSet where
  width := max a.width (state + 1)
  bits := a.bits ||| 1 <<< state
  lt_width s h := by
    rw [Nat.testBit_or, Nat.one_shiftLeft, Nat.testBit_two_pow, Bool.or_eq_true,
      decide_eq_true_eq] at h
    cases h with
    | inl h =>
      have := a.lt_width s h
      omega
    | inr h => omega

/-- The bitwise union of two rows, as wide as the wider of the two. -/
def union (a b : DenseSet) : DenseSet where
  width := max a.width b.width
  bits := a.bits ||| b.bits
  lt_width s h := by
    rw [Nat.testBit_or, Bool.or_eq_true] at h
    cases h with
    | inl h => exact Nat.lt_of_lt_of_le (a.lt_width s h) (Nat.le_max_left ..)
    | inr h => exact Nat.lt_of_lt_of_le (b.lt_width s h) (Nat.le_max_right ..)

/-- Whether two rows have a set bit in common. -/
def intersects (a b : DenseSet) : Bool :=
  a.bits &&& b.bits != 0

/-- Whether no bit is set. -/
def isEmpty (a : DenseSet) : Bool :=
  a.bits == 0

/-- The states of the set, ascending. -/
def toList (a : DenseSet) : List Nat :=
  (List.range a.width).filter a.bits.testBit

/-- The number of set bits, which is the number of states without the states being listed. -/
def count (a : DenseSet) : Nat :=
  (List.range a.width).countP a.bits.testBit

/-- Whether a state is new to a row: its bit is not set yet. -/
def isNew (a : DenseSet) (state : Nat) : Bool :=
  !a.bits.testBit state

/-- Whether two rows hold the same states, whatever their widths. -/
def same (a b : DenseSet) : Bool :=
  a.toList == b.toList

theorem contains_eq_testBit (a : DenseSet) (state : Nat) :
    a.contains state = a.bits.testBit state := by
  unfold contains
  cases h : a.bits.testBit state with
  | false => simp
  | true => simp [a.lt_width state h]

theorem mem_toList {a : DenseSet} {state : Nat} :
    state ∈ a.toList ↔ a.contains state = true := by
  simp [toList, contains]

@[simp] theorem contains_withCapacity (states state : Nat) :
    (withCapacity states).contains state = false := by
  simp [contains, withCapacity]

theorem contains_insert (a : DenseSet) (state s : Nat) :
    (a.insert state).contains s = (decide (state = s) || a.contains s) := by
  simp [contains_eq_testBit, insert, Nat.testBit_or, Nat.one_shiftLeft, Nat.testBit_two_pow,
    Bool.or_comm]

theorem contains_union (a b : DenseSet) (s : Nat) :
    (a.union b).contains s = (a.contains s || b.contains s) := by
  simp [contains_eq_testBit, union, Nat.testBit_or]

end DenseSet

end PatternAutomata
