import Mathlib.Logic.Function.Basic
import PatternAutomata.StateSet.Hashed

/-!
# Registers of state sets

What can be done with sets of states and with a map in which sets are keys, as a small machine.
`Registers` hold sets, a `Request` does something with them or asks about them, and a `Reply`
comes back.  Any program that works with state sets is, as far as the sets are concerned, a list
of requests; so a statement about all lists of requests is one about all programs.

## What the machine leaves open

**The hasher** is any function of what a set tells it (`KeyStore.told`), so different sets may
share a bucket.  A map is a row of buckets, the bucket comes from the hasher, and in the bucket
the key is found by comparison.

**The layout** of a set may be any other one after each change.  `perform` lays a set out again
whenever a register takes one, in the order that an `Arrangement` has for the turn.

Both are parameters of `Registers.run`, and so is the way in which sets are held.  What comes back
is then compared between runs with different parameters.
-/

namespace PatternAutomata

/-- A way of holding sets as keys of a map, and what a set reports of itself.  These are apart
from `StateStore` since no automaton needs them: they belong to sets that are looked up, counted
or hashed. -/
class KeyStore (S : Type) [StateStore S] where
  /-- Whether a state is reported as new when it is inserted. -/
  isNew : S → Nat → Bool
  /-- The number of states. -/
  count : S → Nat
  /-- What a hasher is told. -/
  told : S → List Nat
  /-- The set laid out again. -/
  rearranged : Arrangement → Nat → S → S

/-- The entries of a table come in no order, so a hasher is told them sorted, after their number. -/
instance : KeyStore HashedSet where
  isNew := HashedSet.isNew
  count := HashedSet.size
  told a := a.toList.length :: a.toList
  rearranged order number a := a.rearranged order number

instance : KeyStore DenseSet where
  isNew := DenseSet.isNew
  count := DenseSet.count
  told a := a.toList
  rearranged _ _ a := a

instance : KeyStore StateSet where
  isNew a state := !a.contains state
  count a := a.size
  told a := a.toList.length :: a.toList
  rearranged _ _ a := a

/-- What is done with registers, or asked about them.  Registers are named by numbers, and all of
them exist from the start. -/
inductive Request where
  /-- A register takes the empty set, with room for some states. -/
  | withCapacity (r capacity : Nat)
  /-- A register takes the set of one state, with room for some. -/
  | singleton (r state capacity : Nat)
  /-- A register takes the set of the states of a list. -/
  | ofList (r : Nat) (states : List Nat)
  /-- A state is inserted. -/
  | insert (r state : Nat)
  /-- The states of another register are added. -/
  | union (r other : Nat)
  /-- Is the state in the set? -/
  | contains (r state : Nat)
  /-- How many states are in the set? -/
  | count (r : Nat)
  /-- Is the set empty? -/
  | isEmpty (r : Nat)
  /-- Which states are in the set? -/
  | toList (r : Nat)
  /-- Have the sets a state in common? -/
  | intersects (r other : Nat)
  /-- Are the sets the same? -/
  | same (r other : Nat)
  /-- The map takes a value under the set. -/
  | file (r value : Nat)
  /-- Which value has the map under the set? -/
  | find (r : Nat)

/-- What comes back.  No reply holds a stored set, so replies of runs with different ways of
holding sets can be compared. -/
inductive Reply where
  /-- Nothing. -/
  | done
  /-- Yes or no. -/
  | flag (value : Bool)
  /-- A number. -/
  | number (value : Nat)
  /-- Some states. -/
  | states (list : List Nat)
  /-- The value that the map has, if it has one. -/
  | found (value : Option Nat)
  deriving DecidableEq, Repr

/-- Registers, and a map by its buckets.  The map is shared by all registers, so a key filed from
one register is found from another. -/
structure Registers (S : Type) where
  sets : Nat → S
  filed : Nat → List (S × Nat)

namespace Registers

variable {S : Type} [StateStore S] [KeyStore S] (digest : List Nat → Nat) (order : Arrangement)

/-- All registers are empty, and so is the map. -/
def initial : Registers S where
  sets _ := StateStore.withCapacity 0
  filed _ := []

/-- A register takes a set, in some layout. -/
def put (number : Nat) (regs : Registers S) (r : Nat) (a : S) : Registers S :=
  { regs with sets := Function.update regs.sets r (KeyStore.rearranged order number a) }

/-- The value that a bucket has under a set. -/
def valueIn (entries : List (S × Nat)) (a : S) : Option Nat :=
  (entries.find? fun entry => StateStore.same a entry.1).map (·.2)

/-- The bucket with a value under a set.  If the bucket has the set as a key already, the old key
stays and gets the new value, as maps do; the new key may be laid out otherwise. -/
def valued (entries : List (S × Nat)) (a : S) (value : Nat) : List (S × Nat) :=
  if entries.any fun entry => StateStore.same a entry.1 then
    entries.map fun entry => if StateStore.same a entry.1 then (entry.1, value) else entry
  else (a, value) :: entries

/-- The bucket of a set. -/
def bucket (regs : Registers S) (a : S) : List (S × Nat) :=
  regs.filed (digest (KeyStore.told a))

/-- The value that the map has under a set. -/
def find? (regs : Registers S) (a : S) : Option Nat :=
  valueIn (regs.bucket digest a) a

/-- The map takes a value under a set. -/
def file (regs : Registers S) (a : S) (value : Nat) : Registers S :=
  { regs with
    filed := Function.update regs.filed (digest (KeyStore.told a))
      (valued (regs.bucket digest a) a value) }

/-- What one request leaves, and what comes back.  The number is that of the request, and it tells
the arrangement which order is due. -/
def perform (number : Nat) (regs : Registers S) : Request → Registers S × Reply
  | .withCapacity r capacity => (regs.put order number r (StateStore.withCapacity capacity), .done)
  | .singleton r state capacity =>
    (regs.put order number r (StateStore.singleton state capacity), .done)
  | .ofList r states => (regs.put order number r (StateStore.ofList states), .done)
  | .insert r state =>
    (regs.put order number r (StateStore.insert (regs.sets r) state),
      .flag (KeyStore.isNew (regs.sets r) state))
  | .union r other =>
    (regs.put order number r (StateStore.union (regs.sets r) (regs.sets other)), .done)
  | .contains r state => (regs, .flag (StateStore.contains (regs.sets r) state))
  | .count r => (regs, .number (KeyStore.count (regs.sets r)))
  | .isEmpty r => (regs, .flag (StateStore.isEmpty (regs.sets r)))
  | .toList r => (regs, .states (StateStore.toList (regs.sets r)))
  | .intersects r other =>
    (regs, .flag (StateStore.intersects (regs.sets r) (regs.sets other)))
  | .same r other => (regs, .flag (StateStore.same (regs.sets r) (regs.sets other)))
  | .file r value =>
    (regs.file digest (regs.sets r) value, .found (regs.find? digest (regs.sets r)))
  | .find r => (regs, .found (regs.find? digest (regs.sets r)))

/-- **One request after another**, from a number on: what they leave, and what comes back. -/
def runFrom (number : Nat) (regs : Registers S) : List Request → Registers S × List Reply
  | [] => (regs, [])
  | request :: rest =>
    let (next, reply) := regs.perform digest order number request
    let (last, replies) := runFrom (number + 1) next rest
    (last, reply :: replies)

/-- One request after another, with nothing in the registers and in the map. -/
def run (S : Type) [StateStore S] [KeyStore S] (requests : List Request) :
    Registers S × List Reply :=
  runFrom digest order 0 initial requests

end Registers

end PatternAutomata
