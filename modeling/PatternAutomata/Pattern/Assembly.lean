import PatternAutomata.Pattern.Body
import PatternAutomata.Pattern.Bracket
import PatternAutomata.Pattern.Ceiling

/-!
# Reading a pattern

The tokens of a pattern are put together to a tree, one after another.  An `Assembly` is what has
been read up to some place: the innermost open group and those around it, each as a `Level`.
`Assembly.step` takes in one token, `Assembly.finish` ends the pattern, and `Regex.parse` does all
there is to do, the anchors and the check on nesting included.

## Precedence is the shape of a level

A level keeps the last factor apart, because a repetition sign may still follow it.  The factors
before it are joined already, and so are the alternatives before the present one.  So repetition
binds more closely than concatenation, and this more closely than the bar, without any table that
says so.

## As early as possible

Operators are applied as early as possible.  A factor is joined to those before it as soon as
anything but a repetition sign follows, an alternative as soon as it ends.  Where a pattern has
several faults, or a fault and an operator that leaves the ceiling, this order decides which is
reported.  Only the depth of groups is held against its bound before anything else is read
(`Assembly.checkDepth`), so a pattern that is nested too deep is refused for that, whatever else
is wrong with it.
-/

namespace PatternAutomata

open Regex (Sized)

/-- What has been read of a group, or of the whole pattern.  Each of the three parts may be
missing, and an alternative without factors is told by the last two missing. -/
structure Level where
  /-- The union of the alternatives that are complete. -/
  alternatives : Option Sized
  /-- The concatenation of the factors of the present alternative, without the last. -/
  front : Option Sized
  /-- The last factor of the present alternative. -/
  last : Option Sized

namespace Level

/-- A group of which nothing has been read. -/
def start : Level := ⟨none, none, none⟩

/-- Joins the last factor to those before it. -/
def join (ceiling : Ceiling) (level : Level) : Except Error Level :=
  match level.last, level.front with
  | none, _ => .ok level
  | some factor, none => .ok { level with front := some factor, last := none }
  | some factor, some front => do
    let joined ← ceiling.concat front factor
    return { level with front := some joined, last := none }

/-- Ends the present alternative: all alternatives of the group so far.  An alternative without
factors is the word without symbols, so `(a|)` and `()` are patterns. -/
def close (ceiling : Ceiling) (level : Level) : Except Error Sized := do
  let level ← level.join ceiling
  let alternative := level.front.getD .empty
  match level.alternatives with
  | none => return alternative
  | some before => ceiling.union before alternative

end Level

/-- The groups that are open at some place of a pattern. -/
structure Assembly where
  /-- The innermost one, or the pattern itself. -/
  level : Level
  /-- The levels around it, innermost first, each with the offset at which the group
  inside it was opened. -/
  outer : List (Nat × Level)

namespace Assembly

/-- Nothing has been read. -/
def start : Assembly := ⟨.start, []⟩

/-- Adds a factor that is a choice of symbols, once the factor before it is joined.  The symbols
may themselves be refused, and then the joining comes first, which decides the error if both are. -/
def addChoice (ceiling : Ceiling) (a : Assembly)
    (symbols : Except Error Alphabet) : Except Error Assembly := do
  let level ← a.level.join ceiling
  let symbols ← symbols
  return { a with level := { level with last := some (.oneOf symbols) } }

/-- **Takes in one token**, which stands at `offset`.  This is all that reading does, so what
every token keeps holds of every text that is read. -/
def step (config : Config) (ceiling : Ceiling) (a : Assembly) :
    Nat × Token → Except Error Assembly
  | (_, .symbol c) => a.addChoice ceiling (.ok (.ofList [c]))
  | (_, .dot) => a.addChoice ceiling (.ok config.dotAlphabet)
  | (offset, .bracket b) => a.addChoice ceiling (b.members config.maxClassSize offset)
  | (offset, .dangling) =>
    a.addChoice ceiling (.error (.malformed .trailingBackslash offset))
  | (offset, .opening) => do
    let level ← a.level.join ceiling
    return ⟨.start, (offset, level) :: a.outer⟩
  | (_, .bar) => do
    let alternatives ← a.level.close ceiling
    return { a with level := ⟨some alternatives, none, none⟩ }
  | (offset, .closing) => do
    let group ← a.level.close ceiling
    match a.outer with
    | [] => throw (.malformed .strayClosing offset)
    | (_, level) :: outer => return ⟨{ level with last := some group }, outer⟩
  | (offset, .repetition sign) =>
    match a.level.last with
    | none => .error (.malformed (.nothingToRepeat sign) offset)
    | some factor => do
      let factor ← ceiling.repeated sign factor
      return { a with level := { a.level with last := some factor } }

/-- Ends the pattern. -/
def finish (ceiling : Ceiling) (a : Assembly) : Except Error Sized := do
  let whole ← a.level.close ceiling
  match a.outer with
  | [] => return whole
  | (offset, _) :: _ => throw (.malformed .unclosedGroup offset)

/-- Reads tokens from some place of a pattern on to its end. -/
def run (config : Config) (ceiling : Ceiling) (a : Assembly)
    (tokens : List (Nat × Token)) : Except Error Sized := do
  let a ← tokens.foldlM (step config ceiling) a
  a.finish ceiling

/-- Refuses groups inside groups beyond a depth, if `depth` groups are open already.  A closing
sign that closes nothing is passed over here; it is refused when it is read. -/
def checkDepth (max depth : Nat) : List (Nat × Token) → Except Error Unit
  | [] => .ok ()
  | (offset, .opening) :: rest =>
    if max < depth + 1 then .error (.malformed (.nestedTooDeep max) offset)
    else checkDepth max (depth + 1) rest
  | (_, .closing) :: rest => checkDepth max (depth - 1) rest
  | _ :: rest => checkDepth max depth rest

end Assembly

namespace Regex

/-- **Reads a pattern.**  The tree, of which the automaton stays within bounds, or the first
reason why there is none.  The tree does not depend on the bounds; they decide only whether there
is one. -/
def parse (config : Config) (strategy : Strategy) (pattern : List Char) :
    Except Error Regex := do
  let body := Body.ofPattern pattern
  let tokens := Token.scan body.offset body.text
  Assembly.checkDepth config.maxNestingDepth 0 tokens
  let whole ← Assembly.start.run config ⟨config.maxNfaStates, strategy⟩ tokens
  return whole.regex

end Regex

end PatternAutomata
