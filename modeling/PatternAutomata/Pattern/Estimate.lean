/-!
# Expected size

A guess at the number of states of the automaton of a pattern, made before the pattern is read and
without regard to whether it can be read at all.  `estimateStates` adds up a cost for each
character.

The guess looks at one character at a time and skips over classes up to the next closing bracket,
escaped or not, so it does not even cut the text as reading does.  It can be off in both
directions: a sign `+` copies what is before it, however long that is, and is counted as four
states.  It only serves to choose a way of holding sets of states, and a choice that turns out
wrong is taken back, so no theorem needs anything about it.
-/

namespace PatternAutomata

namespace Estimate

/-- The states that a character outside a class is expected to add. -/
def cost (c : Char) : Nat :=
  if c = '(' ∨ c = ')' ∨ c = '^' ∨ c = '$' then 0
  else if c = '+' then 4
  else 2

mutual

/-- The states that a text outside a class is expected to add. -/
def outside : List Char → Nat
  | [] => 0
  | '\\' :: _ :: rest => 2 + outside rest
  | '\\' :: [] => 2
  | '[' :: rest => 2 + inside rest
  | c :: rest => cost c + outside rest

/-- The states that a text is expected to add if its start lies inside a class. -/
def inside : List Char → Nat
  | [] => 0
  | ']' :: rest => outside rest
  | _ :: rest => inside rest

end

end Estimate

/-- The expected number of states of the automaton of a pattern, at least one, since an automaton
has a start. -/
def estimateStates (pattern : List Char) : Nat :=
  max (Estimate.outside pattern) 1

end PatternAutomata
