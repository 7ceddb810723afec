import PatternAutomata.Nfa.OfRegex
import PatternAutomata.Pattern.Descent

/-!
# Reading with every report

A reader that relies on nothing: wherever a character is wanted it says so if there is none, and
wherever it stops early it names the character, whichever that is.  It is the reading by descent
once more, function by function (`Reporting.expression`, `Reporting.alternatives`,
`Reporting.term`, `Reporting.atom`), but its outcomes are `Report`s.

## Two reports that have no cause

Two reports have no place among the causes of refusal: that a pattern ends where an atom is
wanted, and that a pattern goes on, with any character, where it should have ended.  The other
readers have no words for them, and so it could not even be said of those readers that the two
never occur.  Here they can be made, and that they are not is a theorem.  In the first case an
atom is only wanted where a character is there; in the second the character is always a closing
parenthesis.

`Report.ofError` translates causes into reports.  With it the outcome of this reader can be
compared with that of the others, report by report.
-/

namespace PatternAutomata

open Descent (Rest endsTerm)
open Regex (Sized)

/-- What a reader may have to report.  The first two constructors are for what a recursive reader
has to provide for, since its types do not exclude it. -/
inductive Report where
  /-- A character at which the reading stopped before the end. -/
  | unmatched (c : Char) (offset : Nat)
  /-- The end of the pattern, where a character was wanted. -/
  | unexpectedEnd (offset : Nat)
  /-- A cause of refusal other than these. -/
  | refused (cause : Error)

namespace Report

/-- The wording of a report. -/
def message : Report → String
  | unmatched c offset =>
    "syntax error at offset " ++ toString offset ++ ": " ++
      ("unmatched " ++ String.ofList ['\x27', c, '\x27'])
  | unexpectedEnd offset =>
    "syntax error at offset " ++ toString offset ++ ": " ++ "unexpected end of pattern"
  | refused cause => cause.message

/-- A cause of refusal as a report.  The stray parenthesis is the one cause that is about a
character at which the reading stopped. -/
def ofError : Error → Report
  | .malformed .strayClosing offset => unmatched ')' offset
  | cause => refused cause

end Report

namespace Reporting

/-- The outcome of a part of the reading, with its reports.  Parts that need no reports of their
own, classes and operators, are taken over like this. -/
def report {α : Type} (x : Except Error α) : Except Report α :=
  x.mapError .ofError

variable (config : Config) (ceiling : Ceiling)

mutual

/-- Reads alternatives. -/
def expression (offset : Nat) (text : List Char) :
    Except Report (Sized × Rest (text.length + 1)) := do
  let (first, rest) ← term none offset text
  have := rest.shorter
  let (whole, after) ← alternatives first rest.offset rest.text
  return (whole, after.weaken rest.shorter)
termination_by 4 * text.length + 3

/-- Reads more alternatives. -/
def alternatives (before : Sized) (offset : Nat) (text : List Char) :
    Except Report (Sized × Rest (text.length + 1)) :=
  match text with
  | '|' :: text => do
    let (next, rest) ← term none (offset + 1) text
    have := rest.shorter
    let whole ← report (ceiling.union before next)
    let (whole, after) ← alternatives whole rest.offset rest.text
    return (whole, after.weaken (Nat.le_succ_of_le rest.shorter))
  | text => return (before, ⟨offset, text, Nat.lt_succ_self _⟩)
termination_by 4 * text.length + 2

/-- Reads the factors of an alternative, behind those before. -/
def term (front : Option Sized) (offset : Nat) (text : List Char) :
    Except Report (Sized × Rest (text.length + 1)) :=
  if endsTerm text then return (front.getD .empty, ⟨offset, text, Nat.lt_succ_self _⟩)
  else do
    let (first, behind) ← atom offset text
    have := behind.shorter
    let (factor, rest) ← report (Descent.repetitions ceiling first behind.offset behind.text)
    have := rest.shorter
    let joined ←
      match front with
      | none => pure factor
      | some front => report (ceiling.concat front factor)
    let (whole, after) ← term (some joined) rest.offset rest.text
    return (whole, after.weaken (Nat.le_succ_of_le (Nat.lt_of_le_of_lt rest.le behind.shorter)))
termination_by 4 * text.length + 1

/-- Reads an atom, which takes a character.  That there is one is not taken for granted, so the
end of the text has a report. -/
def atom (offset : Nat) (text : List Char) : Except Report (Sized × Rest text.length) :=
  match text with
  | [] => throw (.unexpectedEnd offset)
  | c :: text =>
    if c = '(' then do
      let (inner, rest) ← expression (offset + 1) text
      let after ← report (rest.close offset)
      return (inner, after)
    else if c = '[' then do
      let (symbols, rest) ← report (Descent.bracket config.maxClassSize offset (offset + 1) text)
      return (.oneOf symbols, rest.weaken (Nat.le_succ _))
    else if c = '.' then
      return (.oneOf config.dotAlphabet, ⟨offset + 1, text, Nat.lt_succ_self _⟩)
    else if c = '\\' then
      match text with
      | [] => throw (.refused (.malformed .trailingBackslash offset))
      | escaped :: text =>
        return (.oneOf (.ofList [escaped]),
          ⟨offset + 2, text, Nat.lt_succ_of_lt (Nat.lt_succ_self _)⟩)
    else
      match Quantifier.ofChar? c with
      | some sign => throw (.refused (.malformed (.nothingToRepeat sign) offset))
      | none => return (.oneOf (.ofList [c]), ⟨offset + 1, text, Nat.lt_succ_self _⟩)
termination_by 4 * text.length

end

/-- **Reads a pattern**, once the depth of its groups is checked. -/
def read (config : Config) (strategy : Strategy) (pattern : List Char) : Except Report Nfa := do
  let body := Body.ofPattern pattern
  report (Descent.checkNesting config.maxNestingDepth 0 body.offset body.text)
  let (whole, rest) ← expression config ⟨config.maxNfaStates, strategy⟩ body.offset body.text
  match rest.text with
  | [] => return whole.regex.toNfa
  | c :: _ => throw (.unmatched c rest.offset)

end Reporting

end PatternAutomata
