import Std.Data.ExtTreeSet.Lemmas

/-!
# Sets of states

States are numbers, and a `StateSet` is a finite set of numbers.  This is the form in which sets
of states are reasoned about and the form in which most of the library holds them: it is kept
sorted, two sets with the same members are equal, and `toList` ascends.  Wherever states are
visited one by one they are visited in that order, so what a loop over a set does is determined by
the set.

The other ways of holding a set, entries of a hash table and rows of bits, are equal to this one
as far as their answers go, but not as values; they are compared with it by laws in a module of
their own.  `StateSet.shift` is here because operators on automata move the states of an operand
up by a fixed number, and everything said about an operand's states is carried along by
`StateSet.mem_shift`.
-/

namespace PatternAutomata

/-- A finite set of states. -/
abbrev StateSet := Std.ExtTreeSet Nat

namespace StateSet

/-- The set of the states of a list. -/
def ofList (states : List Nat) : StateSet :=
  Std.ExtTreeSet.ofList states

/-- The set of one state. -/
def singleton (state : Nat) : StateSet :=
  (∅ : StateSet).insert state

/-- Whether two sets have a state in common. -/
def intersects (a b : StateSet) : Bool :=
  a.toList.any b.contains

/-- The set with every state moved up by `offset`. -/
def shift (offset : Nat) (a : StateSet) : StateSet :=
  ofList (a.toList.map (offset + ·))

theorem mem_ofList {states : List Nat} {s : Nat} : s ∈ ofList states ↔ s ∈ states := by
  simp [ofList, Std.ExtTreeSet.mem_ofList]

theorem mem_singleton {state s : Nat} : s ∈ singleton state ↔ s = state := by
  rw [singleton, Std.ExtTreeSet.mem_insert, Nat.compare_eq_eq]
  simp [eq_comm]

theorem mem_shift {offset : Nat} {a : StateSet} {s : Nat} :
    s ∈ shift offset a ↔ ∃ t ∈ a, s = offset + t := by
  simp [shift, mem_ofList, eq_comm]

theorem intersects_iff {a b : StateSet} : intersects a b = true ↔ ∃ s, s ∈ a ∧ s ∈ b := by
  simp [intersects, List.any_eq_true, Std.ExtTreeSet.mem_toList, Std.ExtTreeSet.contains_iff_mem]

end StateSet

end PatternAutomata
