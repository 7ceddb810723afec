import PatternAutomata.Text.Quoted

/-!
# Errors

Every refusal of this library has a cause, which is a value, and a wording, which is a function of
the cause.  `Error` has four of them.  A `Fault` is in the text of a pattern and comes with the
offset of the character it is about, counted in characters from the start of the whole pattern,
its anchors included.  A *capacity* belongs to the way in which sets of states are held; a *state
limit* is configured.  A `Breach` says which rule of an automaton a request would have broken.

## Why breaches are among the causes

A state that does not exist, a second target for a state and a symbol, a block of which only some
states accept: code that is right never asks for any of this.  They are causes nevertheless, so
that a step which could break a rule says what it does then.  That no way of compiling a pattern
ever comes to a breach is a theorem about the code and not something the types take for granted.

## Two numbers that look alike

`capacityExceeded` and `stateLimitExceeded` both name a number of states and a bound, in opposite
orders.  Which of the two can occur depends on the sets: only dense sets have a capacity, so with
hashed sets a bound that is named is always a configured one.
-/

namespace PatternAutomata

/-- A repetition sign. -/
inductive Quantifier where
  /-- Any number of times: `*`. -/
  | star
  /-- At least once: `+`. -/
  | plus
  /-- At most once: `?`. -/
  | optional
  deriving DecidableEq

namespace Quantifier

/-- The character that writes the sign. -/
def char : Quantifier → Char
  | star => '*'
  | plus => '+'
  | optional => '?'

/-- The sign that a character writes, if it writes one. -/
def ofChar? (c : Char) : Option Quantifier :=
  if c = '*' then some star
  else if c = '+' then some plus
  else if c = '?' then some optional
  else none

@[simp] theorem ofChar?_char (q : Quantifier) : ofChar? q.char = some q := by
  cases q <;> decide

end Quantifier

/-- What is wrong with the text of a pattern.  Each constructor is a rule of the grammar that the
text breaks, or a bound on nesting or on the size of a class. -/
inductive Fault where
  /-- A group that no parenthesis closes. -/
  | unclosedGroup
  /-- A closing parenthesis that closes no group. -/
  | strayClosing
  /-- Groups inside groups beyond the configured depth. -/
  | nestedTooDeep (depth : Nat)
  /-- A repetition sign with nothing before it. -/
  | nothingToRepeat (sign : Quantifier)
  /-- A backslash with nothing after it. -/
  | trailingBackslash
  /-- A bracket class that no bracket closes. -/
  | unclosedClass
  /-- A bracket class that starts with a caret. -/
  | negatedClass
  /-- A bracket class without members. -/
  | emptyClass
  /-- A bracket class with more members than configured. -/
  | classTooLarge (size : Nat)
  /-- A range whose end lies before its start. -/
  | descendingRange (first last : Char)
  /-- A text that should be a bracket class and does not start like one. -/
  | classExpected
  /-- A text that should be a bracket class and goes on after it. -/
  | classOverrun
  deriving DecidableEq

/-- The wording of a fault. -/
def Fault.message : Fault → String
  | unclosedGroup => "unmatched '('"
  | strayClosing => "unmatched ')'"
  | nestedTooDeep depth => "groups nested deeper than " ++ toString depth ++ " levels"
  | nothingToRepeat sign =>
    String.ofList ['\x27', sign.char, '\x27'] ++ " has nothing to repeat"
  | trailingBackslash => "trailing backslash"
  | unclosedClass => "unmatched '['"
  | negatedClass => "negated character classes are not supported"
  | emptyClass => "empty character class"
  | classTooLarge size =>
    "character class has more than " ++ toString size ++ " symbols"
  | descendingRange first last =>
    "invalid range " ++ String.ofList (Text.quote first ++ '-' :: Text.quote last)
  | classExpected => "expected '['"
  | classOverrun => "unexpected input after ']'"

/-- Which rule of an automaton a request would break.  The numbers are those of the request, so
that the wording can name the states and symbols concerned. -/
inductive Breach where
  /-- A state that the nondeterministic automaton does not have. -/
  | missingState (state states : Nat)
  /-- A nondeterministic automaton of which no start state was named. -/
  | missingStart
  /-- A deterministic edge from or to a state that does not exist. -/
  | looseEdge (source : Nat) (symbol : Char) (target : Nat)
  /-- A second target for a state and a symbol. -/
  | secondTarget (source : Nat) (symbol : Char) (present wanted : Nat)
  /-- A block of equivalent states of which only some accept. -/
  | mixedBlock (states : List Nat)
  /-- A block of equivalent states that the numbering did not meet. -/
  | unnumberedBlock (block : Nat)
  deriving DecidableEq

/-- The wording of a breach. -/
def Breach.message : Breach → String
  | missingState state states =>
    "state " ++ toString state ++ " does not exist (automaton has " ++ toString states ++
      " states)"
  | missingStart => "NFA has no start state"
  | looseEdge source symbol target =>
    "transition " ++ toString source ++ " -" ++ String.ofList (Text.quote symbol) ++ "-> " ++
      toString target ++ " references a missing state"
  | secondTarget source symbol present wanted =>
    "state " ++ toString source ++ " already moves to " ++ toString present ++ " on " ++
      String.ofList (Text.quote symbol) ++ ", not " ++ toString wanted
  | mixedBlock states =>
    "block [" ++ String.ofList (Text.commaList (states.map fun s => (toString s).toList)) ++
      "] mixes accepting and non-accepting states"
  | unnumberedBlock block => "block " ++ toString block ++ " was never numbered"

/-- All causes of refusal.  Where several apply, the order in which a construction makes its
checks decides which one is reported. -/
inductive Error where
  /-- The text of the pattern is malformed; the fault is about the character at `offset`. -/
  | malformed (fault : Fault) (offset : Nat)
  /-- The way in which sets of states are held cannot hold this many. -/
  | capacityExceeded (capacity requested : Nat)
  /-- An automaton would grow past its configured ceiling. -/
  | stateLimitExceeded (states max : Nat)
  /-- An automaton would break one of its rules. -/
  | breached (breach : Breach)
  deriving DecidableEq

namespace Error

/-- The wording of an error. -/
def message : Error → String
  | malformed fault offset =>
    "syntax error at offset " ++ toString offset ++ ": " ++ fault.message
  | capacityExceeded capacity requested =>
    "state capacity exceeded: requested " ++ toString requested ++ " states (capacity: " ++
      toString capacity ++ ")"
  | stateLimitExceeded states max =>
    "state limit exceeded: " ++ toString states ++ " states (max: " ++ toString max ++ ")"
  | breached breach => "invariant violation: " ++ breach.message

/-- Whether the text of the pattern is to blame, and not a bound on the number of states or the
request. -/
def isMalformed : Error → Bool
  | malformed _ _ => true
  | _ => false

end Error

end PatternAutomata
