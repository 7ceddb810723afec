import PatternAutomata.Pattern.Regex
import PatternAutomata.Proofs.Alphabet

/-!
# The grammar of patterns

What a pattern is, and what it denotes, without regard to how it is read:

```text
expression := term | expression '|' term
term       := (nothing) | factors
factors    := factor | factors factor
factor     := atom | factor '*' | factor '+' | factor '?'
atom       := plain | '\' any | '.' | '[' item+ ']' | '(' expression ')'
item       := member | member '-' member
```

## Derivations are data

A derivation is a tree, so that what is defined on it is computed along the grammar: its text, the
regular expression that it denotes, its classes and the depth of its groups.  A derivation carries
the side conditions of the rules, so there are none that break them, and a theorem about patterns
of the grammar needs no other hypothesis than that a derivation has the text.

## Classes

A dash between two members is the sign of a range, whether or not it could be a member as well.
So a single member is followed by a dash only if the class ends after the dash
(`ClassItem.Unambiguous`).  This makes the items of a class, and with them the whole grammar,
unambiguous.  A class does not start with a caret, as complements are not supported, and a caret
elsewhere is a member like any other.

## Denotation

A derivation has a regular expression, which is the tree that reading its text should give.  Its
language is defined along the rules as well, in a module of its own, and agrees with the words of
the tree.

## Anchors

Anchors are no part of the grammar, since matching is always of the whole input.  `Unanchored`
says what is left of a pattern without them.  A dollar is an anchor only if it is not escaped,
which the backslashes before it decide.
-/

namespace PatternAutomata

/-! ### Bracket classes -/

/-- A character of a bracket class, with or without a backslash before it. -/
structure Member where
  char : Char
  escaped : Bool
  deriving DecidableEq

namespace Member

/-- The text of a member. -/
def text (m : Member) : List Char :=
  if m.escaped then ['\\', m.char] else [m.char]

/-- A backslash and a closing bracket are members only if they are escaped. -/
def Legal (m : Member) : Prop :=
  m.escaped = false → m.char ≠ ']' ∧ m.char ≠ '\\'

instance (m : Member) : Decidable m.Legal :=
  inferInstanceAs (Decidable (_ → _ ∧ _))

/-- The sign of a range. -/
def dash : Member := ⟨'-', false⟩

/-- The sign of negation. -/
def caret : Member := ⟨'^', false⟩

end Member

/-- An item of a bracket class. -/
inductive ClassItem where
  /-- One symbol. -/
  | single (m : Member)
  /-- All symbols from the first to the last. -/
  | range (first last : Member)
  deriving DecidableEq

namespace ClassItem

/-- The members that an item is written with, the sign of a range among them. -/
def members : ClassItem → List Member
  | single m => [m]
  | range first last => [first, .dash, last]

/-- **The symbols of an item**: its member, or all between its ends. -/
def Holds : ClassItem → Char → Prop
  | single m, c => c = m.char
  | range first last, c => first.char ≤ c ∧ c ≤ last.char

/-- Ranges do not descend, so every item has a symbol, its first end at least. -/
def Ascending : ClassItem → Prop
  | single _ => True
  | range first last => first.char ≤ last.char

instance : ∀ item : ClassItem, Decidable item.Ascending
  | single _ => instDecidableTrue
  | range first last => inferInstanceAs (Decidable (first.char ≤ last.char))

/-- The symbols of an item, as an alphabet. -/
def symbols : ClassItem → Alphabet
  | single m => .ofList [m.char]
  | range first last => .interval first.char last.char

theorem mem_symbols {item : ClassItem} {c : Char} : c ∈ item.symbols ↔ item.Holds c := by
  cases item with
  | single m => simp [symbols, Holds, Alphabet.mem_ofList]
  | range first last => exact Alphabet.mem_interval

/-- A single member is followed by a dash only if nothing follows the dash. -/
def Unambiguous : List ClassItem → Prop
  | [] => True
  | [_] => True
  | single _ :: item :: rest =>
    (item.members.head? = some .dash → item = single .dash ∧ rest = []) ∧
      Unambiguous (item :: rest)
  | range _ _ :: item :: rest => Unambiguous (item :: rest)

end ClassItem

/-- A bracket class.  The conditions on its items are those under which it can be written and is
read as these items. -/
structure Class where
  items : List ClassItem
  nonempty : items ≠ []
  legal : ∀ m ∈ items.flatMap ClassItem.members, m.Legal
  ascending : ∀ item ∈ items, item.Ascending
  unambiguous : ClassItem.Unambiguous items
  /-- A class does not start with the sign of negation. -/
  affirmative : (items.flatMap ClassItem.members).head? ≠ some .caret

namespace Class

/-- The members that a class is written with. -/
def members (cls : Class) : List Member :=
  cls.items.flatMap ClassItem.members

/-- The text of a class. -/
def text (cls : Class) : List Char :=
  '[' :: cls.members.flatMap Member.text ++ [']']

/-- **The symbols of a class** are those of its items: its single members, and all from one end of
a range to the other. -/
def Holds (cls : Class) (c : Char) : Prop :=
  ∃ item ∈ cls.items, item.Holds c

/-- The symbols of a class, as an alphabet. -/
def symbols (cls : Class) : Alphabet :=
  cls.items.foldl (fun symbols item => symbols ∪ item.symbols) ∅

theorem mem_symbols {cls : Class} {c : Char} : c ∈ cls.symbols ↔ cls.Holds c := by
  have fold : ∀ (items : List ClassItem) (symbols : Alphabet),
      c ∈ items.foldl (fun symbols item => symbols ∪ item.symbols) symbols ↔
        c ∈ symbols ∨ ∃ item ∈ items, item.Holds c := by
    intro items
    induction items with
    | nil => simp
    | cons item items ih =>
        intro symbols
        rw [List.foldl_cons, ih, Std.ExtTreeSet.mem_union_iff, ClassItem.mem_symbols, or_assoc]
        simp [List.mem_cons]
  rw [symbols, fold, Holds]
  simp

end Class

/-! ### Derivations -/

/-- The categories of the grammar. -/
inductive Category where
  | expression
  | term
  | factors
  | factor
  | atom

/-- The characters that do not stand for themselves outside a class.  A closing bracket does, and
so do anchors in the middle of a pattern. -/
def reserved : List Char :=
  ['|', '*', '+', '?', '.', '(', ')', '[', '\\']

/-- **The derivations of the grammar**, rule by rule.  The constructors are in the order of the
rules. -/
inductive Derivation : Category → Type where
  /-- `expression := term` -/
  | alternative : Derivation .term → Derivation .expression
  /-- `expression := expression '|' term` -/
  | either : Derivation .expression → Derivation .term → Derivation .expression
  /-- `term := (nothing)` -/
  | nothing : Derivation .term
  /-- `term := factors` -/
  | sequence : Derivation .factors → Derivation .term
  /-- `factors := factor` -/
  | one : Derivation .factor → Derivation .factors
  /-- `factors := factors factor` -/
  | more : Derivation .factors → Derivation .factor → Derivation .factors
  /-- `factor := atom` -/
  | once : Derivation .atom → Derivation .factor
  /-- `factor := factor '*' | factor '+' | factor '?'` -/
  | repeated : Derivation .factor → Quantifier → Derivation .factor
  /-- `atom := plain` -/
  | plain (c : Char) : c ∉ reserved → Derivation .atom
  /-- `atom := '\' any` -/
  | escaped (c : Char) : Derivation .atom
  /-- `atom := '.'` -/
  | dot : Derivation .atom
  /-- `atom := '[' item+ ']'` -/
  | bracket (cls : Class) : Derivation .atom
  /-- `atom := '(' expression ')'` -/
  | group : Derivation .expression → Derivation .atom

namespace Derivation

/-- The text that is derived. -/
def text {k : Category} : Derivation k → List Char
  | alternative t => t.text
  | either e t => e.text ++ '|' :: t.text
  | nothing => []
  | sequence fs => fs.text
  | one f => f.text
  | more fs f => fs.text ++ f.text
  | once a => a.text
  | repeated f sign => f.text ++ [sign.char]
  | plain c _ => [c]
  | escaped c => ['\\', c]
  | dot => ['.']
  | bracket cls => cls.text
  | group e => '(' :: e.text ++ [')']

/-- **What is denoted**: the symbols and operators of the text, where `.` stands for any symbol of
`any`. -/
def regex (any : Alphabet) {k : Category} : Derivation k → Regex
  | alternative t => t.regex any
  | either e t => .union (e.regex any) (t.regex any)
  | nothing => .empty
  | sequence fs => fs.regex any
  | one f => f.regex any
  | more fs f => .concat (fs.regex any) (f.regex any)
  | once a => a.regex any
  | repeated f sign => (f.regex any).repeated sign
  | plain c _ => .oneOf (.ofList [c])
  | escaped c => .oneOf (.ofList [c])
  | dot => .oneOf any
  | bracket cls => .oneOf cls.symbols
  | group e => e.regex any

/-- The classes of a derivation, in the order of the text. -/
def classes {k : Category} : Derivation k → List Class
  | alternative t => t.classes
  | either e t => e.classes ++ t.classes
  | nothing => []
  | sequence fs => fs.classes
  | one f => f.classes
  | more fs f => fs.classes ++ f.classes
  | once a => a.classes
  | repeated f _ => f.classes
  | plain _ _ => []
  | escaped _ => []
  | dot => []
  | bracket cls => [cls]
  | group e => e.classes

/-- How many groups of a derivation lie within one another. -/
def depth {k : Category} : Derivation k → Nat
  | alternative t => t.depth
  | either e t => max e.depth t.depth
  | nothing => 0
  | sequence fs => fs.depth
  | one f => f.depth
  | more fs f => max fs.depth f.depth
  | once a => a.depth
  | repeated f _ => f.depth
  | plain _ _ => 0
  | escaped _ => 0
  | dot => 0
  | bracket _ => 0
  | group e => e.depth + 1

/-- Where the groups of a derivation open that stands at `offset` inside `outside` groups, in the
order of the text, and how many groups are open then. -/
def openings {k : Category} (offset outside : Nat) : Derivation k → List (Nat × Nat)
  | alternative t => t.openings offset outside
  | either e t =>
    e.openings offset outside ++ t.openings (offset + e.text.length + 1) outside
  | nothing => []
  | sequence fs => fs.openings offset outside
  | one f => f.openings offset outside
  | more fs f => fs.openings offset outside ++ f.openings (offset + fs.text.length) outside
  | once a => a.openings offset outside
  | repeated f _ => f.openings offset outside
  | plain _ _ => []
  | escaped _ => []
  | dot => []
  | bracket _ => []
  | group e => (offset, outside + 1) :: e.openings (offset + 1) (outside + 1)

end Derivation

/-! ### Anchors -/

/-- A text after which a dollar is not escaped: it ends in an even number of backslashes. -/
def EndsUnescaped (text : List Char) : Prop :=
  ∃ front n, text = front ++ List.replicate (2 * n) '\\' ∧ front.getLast? ≠ some '\\'

/-- An unescaped dollar at the end of `text` is an anchor, and `body` is the text without it. -/
def WithoutDollar (text body : List Char) : Prop :=
  (text = body ++ ['$'] ∧ EndsUnescaped body) ∨
    (text = body ∧ ∀ front, text = front ++ ['$'] → ¬ EndsUnescaped front)

/-- A caret at the start of `text` is an anchor, and `rest` is the text without it. -/
def WithoutCaret (text rest : List Char) : Prop :=
  text = '^' :: rest ∨ (text = rest ∧ text.head? ≠ some '^')

/-- `Unanchored pattern body`: the body is the pattern without its anchors. -/
def Unanchored (pattern body : List Char) : Prop :=
  ∃ rest, WithoutCaret pattern rest ∧ WithoutDollar rest body

end PatternAutomata
