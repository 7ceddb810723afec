import PatternAutomata.Pattern.Assembly

/-!
# Reading a pattern by descent

A pattern can be read without cutting it into tokens first: by functions that call one another as
the rules of the grammar refer to one another, each taking in characters from the front of what is
left.  `Descent.expression` reads alternatives, `Descent.bracket` a class, and `Descent.pattern` a
pattern.  How many groups are open is then how deep the calls are, and so a limit on nesting
becomes a limit on the call stack.

## What is left is returned

A function returns what it has not read together with the fact that it is shorter than what it was
given (`Descent.Rest`).  A group is read by a call on what follows its opening parenthesis and the
call returns from an unknown place, so without this fact the recursion could not be seen to end.
With it, all calls are on shorter texts, or on the same text further down in a fixed order of the
functions.

## Two ways to bound the depth

`Descent.checkNesting` looks at the parentheses in advance, character by character and by rules of
its own about escapes and classes.  The descent can also be given a limit on the groups that are
open at once, which is held against each group when it is entered (`Descent.enter`).  If the two
rules agree on what a parenthesis is, a text that passes the check never trips the limit, and this
is the point of having both.
-/

namespace PatternAutomata.Descent

open Regex (Sized)

/-- What is left of a text, which is less than `bound` characters.  The bound is in the type, so
that a function cannot return more than it was given. -/
structure Rest (bound : Nat) where
  /-- Where the rest stands. -/
  offset : Nat
  text : List Char
  shorter : text.length < bound

theorem Rest.le {n : Nat} (rest : Rest (n + 1)) : rest.text.length ≤ n :=
  Nat.le_of_lt_succ rest.shorter

/-- What is left of less is left of more.  Results of inner calls are handed outwards by this. -/
def Rest.weaken {n m : Nat} (rest : Rest n) (h : n ≤ m) : Rest m :=
  ⟨rest.offset, rest.text, Nat.lt_of_lt_of_le rest.shorter h⟩

/-! ### Nesting -/

mutual

/-- Refuses groups inside groups beyond a depth, if `depth` groups are open already.  Escaped
parentheses and those in classes are passed over, and so is one that closes nothing. -/
def checkNesting (max depth offset : Nat) : List Char → Except Error Unit
  | [] => .ok ()
  | '\\' :: _ :: rest => checkNesting max depth (offset + 2) rest
  | '[' :: rest => skipClass max depth (offset + 1) rest
  | '(' :: rest =>
    if max < depth + 1 then .error (.malformed (.nestedTooDeep max) offset)
    else checkNesting max (depth + 1) (offset + 1) rest
  | ')' :: rest => checkNesting max (depth - 1) (offset + 1) rest
  | _ :: rest => checkNesting max depth (offset + 1) rest

/-- The same from inside a class. -/
def skipClass (max depth offset : Nat) : List Char → Except Error Unit
  | [] => .ok ()
  | '\\' :: _ :: rest => skipClass max depth (offset + 2) rest
  | ']' :: rest => checkNesting max depth (offset + 1) rest
  | _ :: rest => skipClass max depth (offset + 1) rest

end

/-- Opens a group inside `depth` others, if the limit allows.  Without a limit every group is
opened, and the depth of the calls is bounded by the text alone. -/
def enter (limit : Option Nat) (depth offset : Nat) : Except Error Unit :=
  match limit with
  | none => .ok ()
  | some max => if max < depth + 1 then .error (.malformed (.nestedTooDeep max) offset) else .ok ()

/-! ### Bracket classes -/

/-- A character of the class that was opened at `start`, or none if the class ends. -/
def piece (start offset : Nat) : (text : List Char) →
    Except Error (Option Piece × Rest text.length)
  | [] => .error (.malformed .unclosedClass start)
  | ']' :: rest => .ok (none, ⟨offset + 1, rest, Nat.lt_succ_self _⟩)
  | '\\' :: c :: rest =>
    .ok (some ⟨c, true, offset⟩, ⟨offset + 2, rest, Nat.lt_succ_of_lt (Nat.lt_succ_self _)⟩)
  | ['\\'] => .error (.malformed .trailingBackslash offset)
  | c :: rest => .ok (some ⟨c, false, offset⟩, ⟨offset + 1, rest, Nat.lt_succ_self _⟩)

/-- Whether a text goes on with a dash that is the sign of a range. -/
def isRange : List Char → Bool
  | '-' :: c :: _ => c != ']'
  | _ => false

/-- Takes in the items of the class that was opened at `start`, up to its end.  The sign of a
range is told by looking one character past the dash, so the member after it is read only where
there is something to read. -/
def items (size start : Nat) (members : Alphabet) (offset : Nat) (text : List Char) :
    Except Error (Alphabet × Rest text.length) := do
  match ← piece start offset text with
  | (none, rest) => return (members, rest)
  | (some first, rest) =>
    have := rest.shorter
    if isRange rest.text then
      match ← piece start (rest.offset + 1) rest.text.tail with
      | (none, _) => throw (.malformed .unclosedClass start)
      | (some last, after) =>
        have := after.shorter
        have := (List.tail_sublist rest.text).length_le
        let members ← (Item.range first last).addTo size start members
        let (members, after) ← items size start members after.offset after.text
        return (members, after.weaken (by omega))
    else
      let members ← (Item.single first).addTo size start members
      let (members, after) ← items size start members rest.offset rest.text
      return (members, after.weaken (by omega))
termination_by text.length

/-- Reads the class that was opened at `start`. -/
def bracket (size start offset : Nat) (text : List Char) :
    Except Error (Alphabet × Rest text.length) :=
  if text.head? = some '^' then .error (.malformed .negatedClass offset)
  else do
    let (members, rest) ← items size start ∅ offset text
    if members.isEmpty then throw (.malformed .emptyClass start)
    else return (members, rest)

/-! ### Expressions -/

/-- Closes the group that was opened at `start`. -/
def Rest.close {n : Nat} (start : Nat) (rest : Rest n) : Except Error (Rest n) :=
  if rest.text.head? = some ')' then
    .ok ⟨rest.offset + 1, rest.text.tail,
      Nat.lt_of_le_of_lt (List.tail_sublist _).length_le rest.shorter⟩
  else .error (.malformed .unclosedGroup start)

/-- Takes in the signs of repetition behind a factor.  Signs may follow one another, and each
applies to all that is before it. -/
def repetitions (ceiling : Ceiling) (factor : Sized) (offset : Nat) : (text : List Char) →
    Except Error (Sized × Rest (text.length + 1))
  | [] => .ok (factor, ⟨offset, [], Nat.lt_succ_self _⟩)
  | c :: rest =>
    match Quantifier.ofChar? c with
    | none => .ok (factor, ⟨offset, c :: rest, Nat.lt_succ_self _⟩)
    | some sign => do
      let factor ← ceiling.repeated sign factor
      let (factor, after) ← repetitions ceiling factor (offset + 1) rest
      return (factor, after.weaken (Nat.le_succ _))

/-- Whether a term ends before a text. -/
def endsTerm : List Char → Bool
  | [] => true
  | c :: _ => c == '|' || c == ')'

variable (config : Config) (ceiling : Ceiling) (limit : Option Nat)

mutual

/-- Reads alternatives, if `depth` groups are open around them. -/
def expression (depth offset : Nat) (text : List Char) :
    Except Error (Sized × Rest (text.length + 1)) := do
  let (first, rest) ← term depth none offset text
  have := rest.shorter
  let (whole, after) ← alternatives depth first rest.offset rest.text
  return (whole, after.weaken rest.shorter)
termination_by 4 * text.length + 3

/-- Reads more alternatives. -/
def alternatives (depth : Nat) (before : Sized) (offset : Nat) (text : List Char) :
    Except Error (Sized × Rest (text.length + 1)) :=
  match text with
  | '|' :: text => do
    let (next, rest) ← term depth none (offset + 1) text
    have := rest.shorter
    let whole ← ceiling.union before next
    let (whole, after) ← alternatives depth whole rest.offset rest.text
    return (whole, after.weaken (Nat.le_succ_of_le rest.shorter))
  | text => return (before, ⟨offset, text, Nat.lt_succ_self _⟩)
termination_by 4 * text.length + 2

/-- Reads the factors of an alternative, behind those before. -/
def term (depth : Nat) (front : Option Sized) (offset : Nat) (text : List Char) :
    Except Error (Sized × Rest (text.length + 1)) :=
  match text with
  | [] => return (front.getD .empty, ⟨offset, [], Nat.lt_succ_self _⟩)
  | c :: text =>
    if endsTerm (c :: text) then
      return (front.getD .empty, ⟨offset, c :: text, Nat.lt_succ_self _⟩)
    else do
      let (first, behind) ← atom depth c offset text
      have := behind.shorter
      let (factor, rest) ← repetitions ceiling first behind.offset behind.text
      have := rest.shorter
      let joined ←
        match front with
        | none => pure factor
        | some front => ceiling.concat front factor
      let (whole, after) ← term depth (some joined) rest.offset rest.text
      return (whole, after.weaken (Nat.le_succ_of_le (Nat.lt_of_le_of_lt rest.le behind.shorter)))
termination_by 4 * text.length + 1

/-- Reads an atom that starts with `c`, at `offset`. -/
def atom (depth : Nat) (c : Char) (offset : Nat) (text : List Char) :
    Except Error (Sized × Rest (text.length + 1)) :=
  if c = '(' then do
    enter limit depth offset
    let (inner, rest) ← expression (depth + 1) (offset + 1) text
    let after ← rest.close offset
    return (inner, after)
  else if c = '[' then do
    let (symbols, rest) ← bracket config.maxClassSize offset (offset + 1) text
    return (.oneOf symbols, rest.weaken (Nat.le_succ _))
  else if c = '.' then
    return (.oneOf config.dotAlphabet, ⟨offset + 1, text, Nat.lt_succ_self _⟩)
  else if c = '\\' then
    match text with
    | [] => throw (.malformed .trailingBackslash offset)
    | escaped :: text =>
      return (.oneOf (.ofList [escaped]),
        ⟨offset + 2, text, Nat.lt_succ_of_lt (Nat.lt_succ_self _)⟩)
  else
    match Quantifier.ofChar? c with
    | some sign => throw (.malformed (.nothingToRepeat sign) offset)
    | none => return (.oneOf (.ofList [c]), ⟨offset + 1, text, Nat.lt_succ_self _⟩)
termination_by 4 * text.length + 4

end

/-- **Reads a pattern**, with `limit` groups open at once. -/
def pattern (offset : Nat) (text : List Char) : Except Error Sized := do
  let (whole, rest) ← expression config ceiling limit 0 offset text
  match rest.text with
  | [] => return whole
  | _ :: _ => throw (.malformed .strayClosing rest.offset)

end PatternAutomata.Descent
