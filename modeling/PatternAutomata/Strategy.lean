import PatternAutomata.Error
import PatternAutomata.StateSet.Lawful

/-!
# Strategies for state sets

An automaton is built for one of two ways of holding its sets of states, hashed sets or rows of
bits.  A `Strategy` names the way, and `Strategy.Store` is the type of the sets that automata are
then run with.  The way does not change what an automaton does; it decides how many states the
automaton may have, since rows of bits have a capacity.

## Where the capacity is checked

The capacity is not checked once at the end.  Every operator on automata builds its result piece
by piece, and each piece makes the automaton grow; the numbers of states that a construction
passes through are checked in the order in which it does so, and the first that is too great is
the one named in the refusal.  `Strategy.checkAll` is this order, and `checkUnion`, `checkConcat`,
`checkAround` and `checkPlus` are the lists of the single operators.  The last number of each list
is the size of the result and the greatest of the list, so a construction is refused iff its
result is too large, while the number that is *named* may be smaller.

## The choice

Unless a strategy is configured, `Strategy.forEstimate` chooses by an expected number of states,
which is a guess from the text of the pattern.  A guess may be wrong in either direction, and what
happens then is not decided here but where patterns are compiled.
-/

namespace PatternAutomata

/-- How an automaton holds its sets of states. -/
inductive Strategy where
  /-- Hashed sets, which hold any number of states. -/
  | hash
  /-- Rows of bits, which hold states up to a fixed capacity. -/
  | bit
  deriving DecidableEq

namespace Strategy

/-- The sets of states that an automaton is run with. -/
def Store : Strategy → Type
  | hash => StateSet
  | bit => DenseSet

instance (strategy : Strategy) : StateStore strategy.Store :=
  match strategy with
  | hash => inferInstanceAs (StateStore StateSet)
  | bit => inferInstanceAs (StateStore DenseSet)

instance (strategy : Strategy) : LawfulStateStore strategy.Store :=
  match strategy with
  | hash => inferInstanceAs (LawfulStateStore StateSet)
  | bit => inferInstanceAs (LawfulStateStore DenseSet)

/-- The greatest number of states, where there is one.  Hashed sets answer `none`, which is why
every check of theirs passes. -/
def maxStates? : Strategy → Option Nat
  | hash => none
  | bit => some DenseSet.capacity

/-- Refuses a number of states beyond the capacity.  A number that equals the capacity is not
refused. -/
def check (strategy : Strategy) (requested : Nat) : Except Error Unit :=
  match strategy.maxStates? with
  | none => .ok ()
  | some capacity =>
    if requested ≤ capacity then .ok () else .error (.capacityExceeded capacity requested)

/-- Checks the numbers of states that a construction passes through, in order; the first
that is too great is the one refused. -/
def checkAll (strategy : Strategy) : List Nat → Except Error Unit
  | [] => .ok ()
  | requested :: rest =>
    match strategy.check requested with
    | .ok () => strategy.checkAll rest
    | .error e => .error e

/-- Refuses what a union of automata with `n` and `m` states passes through: the new start
state, the first operand, the second, the new accepting state. -/
def checkUnion (strategy : Strategy) (n m : Nat) : Except Error Unit :=
  strategy.checkAll [1, 1 + n, 1 + n + m, 1 + n + m + 1]

/-- Refuses what a concatenation passes through: the first operand, then the second. -/
def checkConcat (strategy : Strategy) (n m : Nat) : Except Error Unit :=
  strategy.checkAll [n, n + m]

/-- Refuses what a loop or a bypass around an automaton with `n` states passes through: the
new start state, the operand, the new accepting state. -/
def checkAround (strategy : Strategy) (n : Nat) : Except Error Unit :=
  strategy.checkAll [1, 1 + n, 1 + n + 1]

/-- Refuses what one or more repetitions pass through: the operand repeated any number of
times, then the operand in front of it. -/
def checkPlus (strategy : Strategy) (n : Nat) : Except Error Unit := do
  strategy.checkAround n
  strategy.checkConcat n (n + 2)

/-- Rows of bits pay off for automata of more than `threshold` states, as far as they can hold
them.  An estimate beyond the capacity asks for hashed sets at once. -/
def forEstimate (estimate threshold : Nat) : Strategy :=
  if threshold < estimate ∧ estimate ≤ DenseSet.capacity then bit else hash

@[simp] theorem checkAll_nil (strategy : Strategy) : strategy.checkAll [] = .ok () := rfl

theorem checkAll_cons (strategy : Strategy) (requested : Nat) (rest : List Nat) :
    strategy.checkAll (requested :: rest) =
      (do strategy.check requested; strategy.checkAll rest) := by
  rw [checkAll]
  cases strategy.check requested with
  | ok => rfl
  | error e => rfl

end Strategy

end PatternAutomata
