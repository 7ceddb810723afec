import PatternAutomata.Alphabet
import PatternAutomata.Pattern.Token

/-!
# Bracket classes

A bracket class denotes a set of symbols: its single members, and for every range all symbols
between the two ends.  `Item.ofPieces` groups the characters of a class into `Item`s, and
`Bracket.members` takes the items in from left to right and reports the first fault met.

## A dash is a sign by its place

A dash after a member makes a range, unless the class ends right after the dash; then it is a
member itself.  A dash that is escaped is a member anywhere, and so is one at the start.  In
`[a-z-9]` the second dash follows a range and not a member, so it is a member, or the start of a
range if another dash follows.

## What the ceiling counts

The size of a class is held against the ceiling before a range is expanded, counting the members
so far and all of the range, and once more afterwards.  The first count is there so that a huge
range is refused without being written out.  But it counts a symbol twice that is a member already
and in the range, so a class may be refused although it has no more symbols than the ceiling
allows.  What a class is refused for exactly is worked out in the module on the size of classes.
-/

namespace PatternAutomata

/-- A part of a bracket class. -/
inductive Item where
  /-- One symbol. -/
  | single (p : Piece)
  /-- All symbols from the first to the last. -/
  | range (first last : Piece)
  deriving DecidableEq

namespace Item

/-- The items of the text of a class.  Before the end of the class a dash is a member; a range
that breaks off at a backslash without a character is no item, since the text is refused for the
backslash then. -/
def ofPieces (ending : BracketEnd) : List Piece → List Item
  | [] => []
  | [p] => [single p]
  | [p, q] =>
    match ending, q.isDash with
    | .dangling _, true => []
    | _, _ => [single p, single q]
  | p :: q :: r :: rest =>
    if q.isDash then range p r :: ofPieces ending rest
    else single p :: ofPieces ending (q :: r :: rest)

/-- Takes an item into the members of the class that was opened at `start`.  A range is looked at
in three steps: whether it descends, whether it is too long on top of the members so far, and
whether the members are too many after it. -/
def addTo (limit start : Nat) (members : Alphabet) : Item → Except Error Alphabet
  | single p =>
    let grown := members.insert p.char
    if limit < grown.size then .error (.malformed (.classTooLarge limit) start)
    else .ok grown
  | range first last =>
    if last.char < first.char then
      .error (.malformed (.descendingRange first.char last.char) first.offset)
    else if limit < members.size + Alphabet.span first.char last.char then
      .error (.malformed (.classTooLarge limit) start)
    else
      let grown := members ∪ Alphabet.interval first.char last.char
      if limit < grown.size then .error (.malformed (.classTooLarge limit) start)
      else .ok grown

end Item

namespace Bracket

/-- The items of a class. -/
def items (b : Bracket) : List Item :=
  Item.ofPieces b.ending b.pieces

/-- The symbols of a class that was opened at `start` and may hold `limit` symbols.  Faults are
met in the order of the text, so the end of the class is judged last. -/
def members (limit start : Nat) (b : Bracket) : Except Error Alphabet := do
  match b.pieces with
  | p :: _ => if p.isCaret then throw (.malformed .negatedClass p.offset)
  | [] => pure ()
  let members ← b.items.foldlM (Item.addTo limit start) ∅
  match b.ending with
  | .dangling offset => throw (.malformed .trailingBackslash offset)
  | .missing => throw (.malformed .unclosedClass start)
  | .closed =>
    if members.isEmpty then throw (.malformed .emptyClass start)
    else return members

/-- The symbols of a text that is a single bracket class.  What follows the class is looked at
only if the class itself has no fault. -/
def membersOf (limit : Nat) (text : List Char) : Except Error Alphabet := do
  match Token.scan 0 text with
  | (start, .bracket b) :: rest =>
    let members ← b.members limit start
    match rest with
    | [] => return members
    | (offset, _) :: _ => throw (.malformed .classOverrun offset)
  | _ => throw (.malformed .classExpected 0)

end Bracket

end PatternAutomata
