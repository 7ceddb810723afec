import PatternAutomata.Alphabet
import PatternAutomata.Error

/-!
# Regular expressions

What a pattern says, once its text has been read: a tree of choices of symbols and of the
operators on them.  A single symbol, the sign for any symbol and a bracket class are all a choice
among the symbols of an alphabet, so `Regex` has one leaf for the three.  Groups leave no trace in
the tree.

`Regex.Matches` says which words a tree denotes, rule by rule and without any automaton, and it is
what the automata are held against.  `Regex.symbols` are the symbols that the leaves are written
with, which is not the same as those that occur in words: in `a.` under an empty alphabet there is
a symbol and no word.

## The size is known from the tree

`Regex.states` is the number of states that the automaton of a tree is going to have.  Every
operator of a pattern is held against the ceilings when it is applied, before there is an
automaton, and by this number.  `Regex.Sized` carries it along, with the proof that it is the
right one, so that it is at hand at every operator without walking through the operands.
-/

namespace PatternAutomata

/-- A regular expression.  No leaf is without words except a choice among no symbols, so a tree
for the empty language has to have one of these. -/
inductive Regex where
  /-- The word without symbols. -/
  | empty
  /-- Any one symbol of an alphabet. -/
  | oneOf (symbols : Alphabet)
  /-- A word of either operand. -/
  | union (left right : Regex)
  /-- A word of the first operand followed by a word of the second. -/
  | concat (left right : Regex)
  /-- Any number of words of the operand, one after another. -/
  | star (inner : Regex)
  /-- At least one word of the operand, one after another. -/
  | plus (inner : Regex)
  /-- A word of the operand, or the word without symbols. -/
  | optional (inner : Regex)

namespace Regex

/-- **The words of a tree**, rule by rule.  The repetitions are unfolded from the left, one word
of the operand at a time, and a word of the operand may be empty. -/
inductive Matches : Regex → List Char → Prop where
  | empty : Matches .empty []
  | oneOf {symbols : Alphabet} {c : Char} : c ∈ symbols → Matches (.oneOf symbols) [c]
  | unionLeft {l r : Regex} {w : List Char} : Matches l w → Matches (.union l r) w
  | unionRight {l r : Regex} {w : List Char} : Matches r w → Matches (.union l r) w
  | concat {l r : Regex} {v w : List Char} :
      Matches l v → Matches r w → Matches (.concat l r) (v ++ w)
  | starNil {r : Regex} : Matches (.star r) []
  | starMore {r : Regex} {v w : List Char} :
      Matches r v → Matches (.star r) w → Matches (.star r) (v ++ w)
  | plus {r : Regex} {v w : List Char} :
      Matches r v → Matches (.star r) w → Matches (.plus r) (v ++ w)
  | optionalNone {r : Regex} : Matches (.optional r) []
  | optionalSome {r : Regex} {w : List Char} : Matches r w → Matches (.optional r) w

/-- The symbols that the leaves of a tree are written with. -/
def symbols : Regex → Alphabet
  | empty => ∅
  | oneOf cs => cs
  | union l r => l.symbols ∪ r.symbols
  | concat l r => l.symbols ∪ r.symbols
  | star r => r.symbols
  | plus r => r.symbols
  | optional r => r.symbols

/-- The number of states of the automaton of a tree.  The operand of `plus` is copied, so a tree
of nested signs `+` has exponentially many. -/
def states : Regex → Nat
  | empty => 1
  | oneOf _ => 2
  | union l r => l.states + r.states + 2
  | concat l r => l.states + r.states
  | star r => r.states + 2
  | plus r => 2 * r.states + 2
  | optional r => r.states + 2

/-- The tree with a repetition sign behind it. -/
def repeated (sign : Quantifier) (r : Regex) : Regex :=
  match sign with
  | .star => star r
  | .plus => plus r
  | .optional => optional r

/-- A tree and the number of states of its automaton.  The number is determined by the tree, so
two of these with the same tree are equal. -/
structure Sized where
  regex : Regex
  states : Nat
  states_eq : states = regex.states

namespace Sized

/-- The word without symbols. -/
def empty : Sized := ⟨.empty, 1, rfl⟩

/-- Any one symbol of an alphabet. -/
def oneOf (symbols : Alphabet) : Sized := ⟨.oneOf symbols, 2, rfl⟩

/-- A word of either operand. -/
def union (l r : Sized) : Sized :=
  ⟨.union l.regex r.regex, l.states + r.states + 2, by
    simp [Regex.states, l.states_eq, r.states_eq]⟩

/-- A word of the first operand followed by a word of the second. -/
def concat (l r : Sized) : Sized :=
  ⟨.concat l.regex r.regex, l.states + r.states, by
    simp [Regex.states, l.states_eq, r.states_eq]⟩

/-- The number of states after a repetition sign is applied to `states` states. -/
def statesAfter (sign : Quantifier) (states : Nat) : Nat :=
  match sign with
  | .star => states + 2
  | .plus => 2 * states + 2
  | .optional => states + 2

/-- The tree with a repetition sign behind it. -/
def repeated (sign : Quantifier) (r : Sized) : Sized :=
  ⟨r.regex.repeated sign, statesAfter sign r.states, by
    cases sign <;> simp [Regex.repeated, statesAfter, Regex.states, r.states_eq]⟩

end Sized

end Regex

end PatternAutomata
