import PatternAutomata.StateSet.Dense
import PatternAutomata.Text.Quoted

/-!
# Ways of holding a set of states

What sorted sets, hash tables and rows of bits have in common: the operations that build a set and
the questions that can be asked of it.  An algorithm that uses a `StateStore` and nothing else
runs with any of them, and it is the same algorithm, so that a statement about one way can be
carried to the others as soon as the laws of stores are known to hold.

The capacity that a constructor is handed is a hint about storage.  No answer depends on it, nor
on the order in which states were inserted; both are laws, proved for each way, and not part of
this interface.

## In no particular order

A set may be gone through in one order now and in another one the next time.  So an order is not a
property of a set, and an `Arrangement` is not a function of sets: whatever goes through sets
counts them, and the arrangement has an order for each number.  It is handed around as a parameter
wherever a loop goes through a hash table, and theorems about the loop quantify over it.
-/

namespace PatternAutomata

/-- The orders in which sets of states are gone through, one set after another.  The first
argument of `arrange` is the turn, so the same set may come up in different orders at different
times. -/
structure Arrangement where
  /-- The states of a set in order, where this set is the given one in number to be gone through. -/
  arrange : Nat → List Nat → List Nat
  /-- Every state of the set comes up once. -/
  perm : ∀ number states, (arrange number states).Perm states

/-- A way of holding a finite set of states.  The operations come without laws here, since the
definitions that run need none; `LawfulStateStore` has them. -/
class StateStore (S : Type) where
  /-- An empty set with room for some states. -/
  withCapacity : Nat → S
  /-- The set with one more state. -/
  insert : S → Nat → S
  /-- Whether a state is in the set. -/
  contains : S → Nat → Bool
  /-- The union of two sets. -/
  union : S → S → S
  /-- Whether two sets have a state in common. -/
  intersects : S → S → Bool
  /-- Whether the set has no state. -/
  isEmpty : S → Bool
  /-- Whether two sets have the same states. -/
  same : S → S → Bool
  /-- The states, ascending. -/
  toList : S → List Nat

namespace StateStore

variable {S : Type} [StateStore S]

/-- The set of one state. -/
def singleton (state capacity : Nat) : S :=
  insert (withCapacity capacity) state

/-- The set of the states of a list, with room for its greatest.  The room is asked for up front
so that no insertion has to make the set grow. -/
def ofList (states : List Nat) : S :=
  states.foldl insert (withCapacity (states.foldl (fun room s => max room (s + 1)) 0))

/-- The number of states in a set. -/
def size (a : S) : Nat :=
  (toList a).length

/-- The states in braces. -/
def display (a : S) : String :=
  String.ofList (Text.inBraces ((toList a).map fun s => (toString s).toList))

/-- Whether a map that files `a` under its states finds it again under the states of `b`.  Keys
are compared as lists of states, so two stored sets of different layout or width can be the same
key. -/
def sameKey (a b : S) : Bool :=
  toList a == toList b

end StateStore

instance : StateStore StateSet where
  withCapacity _ := ∅
  insert a state := a.insert state
  contains a state := a.contains state
  union a b := a ∪ b
  intersects := StateSet.intersects
  isEmpty a := a.isEmpty
  same a b := a == b
  toList a := a.toList

instance : StateStore DenseSet where
  withCapacity := DenseSet.withCapacity
  insert := DenseSet.insert
  contains := DenseSet.contains
  union := DenseSet.union
  intersects := DenseSet.intersects
  isEmpty := DenseSet.isEmpty
  same := DenseSet.same
  toList := DenseSet.toList

end PatternAutomata
