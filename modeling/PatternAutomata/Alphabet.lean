import Std.Data.ExtTreeSet.Lemmas
import PatternAutomata.Text.Quoted

/-!
# Alphabets

A symbol is a single character, and an `Alphabet` is a finite set of symbols, ordered by code
point.  Three things are alphabets: what `.` stands for (`Alphabet.standard`, unless another is
configured), the symbols that an automaton knows, and what a bracket class denotes, which is put
together from the `Alphabet.interval` of each range.

## Order is where numbering comes from

Two alphabets with the same members are equal, in whatever order the members were added, so
equality of automata can be stated without a word about how their alphabets came about.  Whatever
is done symbol by symbol is done in the order of `toList`, which ascends by code point.  The
numbers of the states of every automaton go back to this order, and with it the result that
patterns with the same words over the same symbols have the very same automaton.

Between two characters there may be code points that are no characters.  `interval` passes over
them while `span` counts them, and a range is held against the ceiling on classes by its `span`.
-/

namespace PatternAutomata

/-- A finite set of symbols. -/
abbrev Alphabet := Std.ExtTreeSet Char

namespace Alphabet

/-- The alphabet of the symbols of a list. -/
def ofList (symbols : List Char) : Alphabet :=
  Std.ExtTreeSet.ofList symbols

theorem mem_ofList {symbols : List Char} {c : Char} : c ∈ ofList symbols ↔ c ∈ symbols := by
  simp [ofList, Std.ExtTreeSet.mem_ofList]

/-- The symbols from `first` to `last` in the order of code points.  Code points that are
no characters are passed over. -/
def intervalList (first last : Char) : List Char :=
  (List.range' first.toNat (last.toNat + 1 - first.toNat)).filterMap fun code =>
    if h : code.isValidChar then some (Char.ofNatAux code h) else none

/-- All symbols from `first` to `last`, both included. -/
def interval (first last : Char) : Alphabet :=
  ofList (intervalList first last)

/-- The number of code points from `first` to `last`, those that are no characters counted too.
So this is at least the number of symbols in between, and greater where a range runs over the gap
among the code points. -/
def span (first last : Char) : Nat :=
  last.toNat - first.toNat + 1

/-- Punctuation of the standard alphabet.  The characters with a meaning in patterns are
left out, so that a label over this alphabet never needs an escape for them. -/
def standardPunctuation : List Char :=
  [' ', '!', '\x22', '#', '%', '&', '\x27', ',', '-', '/', ':', ';', '<', '=', '>', '@', '_',
    '\x60', '~']

/-- ASCII letters, digits and a fixed choice of punctuation: what `.` stands for unless
another alphabet is configured. -/
def standard : Alphabet :=
  ofList (intervalList 'a' 'z' ++ intervalList 'A' 'Z' ++ intervalList '0' '9' ++
    standardPunctuation)

/-- The members as one text, ascending. -/
def text (a : Alphabet) : String :=
  String.ofList a.toList

/-- The members between single quotes, in braces: an alphabet as it is shown. -/
def display (a : Alphabet) : String :=
  String.ofList (Text.inBraces (a.toList.map Text.quote))

end Alphabet

end PatternAutomata
