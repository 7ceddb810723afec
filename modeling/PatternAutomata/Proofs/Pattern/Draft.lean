import PatternAutomata.Proofs.Nfa.OfRegex
import PatternAutomata.Proofs.Nfa.Stepwise

/-!
# Automata made while reading

The automaton of a pattern can be made while the pattern is read, with an automaton in the place
of every tree.  Each operator then works on automata that have been made, state by state and edge
by edge, and is refused when one of these steps is.  `Nfa.assemble_eq` says that this comes to the
same as reading a tree first and making its automaton then.

## Why the order of refusals is the same

A tree keeps the number of states of its automaton, and its operators ask the ceiling for the
numbers that the automaton would ask for.  So an operator on trees is refused for the same cause
as the operator on the automata of these trees, and otherwise gives the tree of the result
(`Ceiling.unionOf_eq` and so on).  From there on the two readings go in step: a draft is the
assembly with every tree replaced by its automaton, and `Draft.step_eq` says that a token keeps it
so.
-/

namespace PatternAutomata

open Regex (Sized)

namespace Regex

theorem tidy_toNfa (r : Regex) : r.toNfa.Tidy := by
  induction r with
  | empty => exact .epsilon
  | oneOf symbols => exact .oneOf _
  | union l r ihl ihr => exact ihl.union ihr
  | concat l r ihl ihr => exact ihl.concat ihr
  | star r ih => exact ih.star
  | plus r ih => exact ih.plus
  | optional r ih => exact ih.optional

/-- The automaton of a tree, without the number that is kept with it. -/
def Sized.toNfa (r : Sized) : Nfa :=
  r.regex.toNfa

theorem Sized.wellFormed_toNfa (r : Sized) : r.toNfa.WellFormed :=
  r.regex.wellFormed_toNfa

theorem Sized.tidy_toNfa (r : Sized) : r.toNfa.Tidy :=
  r.regex.tidy_toNfa

theorem Sized.numStates_toNfa (r : Sized) : r.toNfa.numStates = r.states :=
  r.regex.numStates_toNfa.trans r.states_eq.symm

end Regex

/-! ### Operators under a ceiling -/

namespace Ceiling

variable (ceiling : Ceiling) (l r : Sized)

/-- The union of two automata, if it stays within bounds.  The configured ceiling is asked before
the capacity. -/
def unionOf (ceiling : Ceiling) (a b : Nfa) : Except Error Nfa := do
  ceiling.reserve (a.numStates + b.numStates + 2)
  Nfa.Stepwise.union ceiling.strategy a b

/-- The concatenation of two automata, if it stays within bounds. -/
def concatOf (ceiling : Ceiling) (a b : Nfa) : Except Error Nfa := do
  ceiling.reserve (a.numStates + b.numStates)
  Nfa.Stepwise.concat ceiling.strategy a b

/-- A repeated automaton, if it stays within bounds.  For `+` the copies are counted, too. -/
def repeatedOf (ceiling : Ceiling) (sign : Quantifier) (a : Nfa) : Except Error Nfa := do
  ceiling.reserve (Sized.statesAfter sign a.numStates)
  match sign with
  | .star => Nfa.Stepwise.star ceiling.strategy a
  | .plus => Nfa.Stepwise.plus ceiling.strategy a
  | .optional => Nfa.Stepwise.optional ceiling.strategy a

theorem unionOf_eq : ceiling.unionOf l.toNfa r.toNfa = Sized.toNfa <$> ceiling.union l r := by
  rw [unionOf, union, Nfa.Stepwise.union_eq l.wellFormed_toNfa r.wellFormed_toNfa l.tidy_toNfa
    r.tidy_toNfa, Strategy.union, l.numStates_toNfa, r.numStates_toNfa]
  simp only [map_bind, map_pure]
  rfl

theorem concatOf_eq : ceiling.concatOf l.toNfa r.toNfa = Sized.toNfa <$> ceiling.concat l r := by
  rw [concatOf, concat, Nfa.Stepwise.concat_eq l.wellFormed_toNfa r.wellFormed_toNfa l.tidy_toNfa
    r.tidy_toNfa, Strategy.concat, l.numStates_toNfa, r.numStates_toNfa]
  simp only [map_bind, map_pure]
  rfl

theorem repeatedOf_eq (sign : Quantifier) :
    ceiling.repeatedOf sign r.toNfa = Sized.toNfa <$> ceiling.repeated sign r := by
  unfold repeatedOf repeated
  rw [r.numStates_toNfa]
  cases sign with
  | star =>
      simp only [Nfa.Stepwise.star_eq r.wellFormed_toNfa r.tidy_toNfa, Strategy.star,
        r.numStates_toNfa, map_bind, map_pure]
      rfl
  | plus =>
      simp only [Nfa.Stepwise.plus_eq r.wellFormed_toNfa r.tidy_toNfa, Strategy.plus,
        r.numStates_toNfa, map_bind, map_pure]
      rfl
  | optional =>
      simp only [Nfa.Stepwise.optional_eq r.wellFormed_toNfa r.tidy_toNfa, Strategy.optional,
        r.numStates_toNfa, map_bind, map_pure]
      rfl

end Ceiling

/-! ### Groups that are open -/

/-- What has been read of a group, or of the whole pattern, as automata instead of trees. -/
structure Draft.Level where
  /-- The union of the alternatives that are complete. -/
  alternatives : Option Nfa
  /-- The concatenation of the factors of the present alternative, without the last. -/
  front : Option Nfa
  /-- The last factor of the present alternative. -/
  last : Option Nfa

/-- The groups that are open at some place of a pattern, with automata for what has been read of
them. -/
structure Draft where
  /-- The innermost one, or the pattern itself. -/
  level : Draft.Level
  /-- The levels around it, innermost first, each with the offset at which the group inside it
  was opened. -/
  outer : List (Nat × Draft.Level)

namespace Draft

namespace Level

/-- A group of which nothing has been read. -/
def start : Level := ⟨none, none, none⟩

/-- Joins the last factor to those before it, by an operator that may be refused. -/
def join (ceiling : Ceiling) (level : Level) : Except Error Level :=
  match level.last, level.front with
  | none, _ => .ok level
  | some factor, none => .ok { level with front := some factor, last := none }
  | some factor, some front => do
    let joined ← ceiling.concatOf front factor
    return { level with front := some joined, last := none }

/-- Ends the present alternative, which is the empty word if it has no factor. -/
def close (ceiling : Ceiling) (level : Level) : Except Error Nfa := do
  let level ← level.join ceiling
  let alternative := level.front.getD .epsilon
  match level.alternatives with
  | none => return alternative
  | some before => ceiling.unionOf before alternative

end Level

/-- Nothing has been read. -/
def start : Draft := ⟨.start, []⟩

/-- Adds a factor that is a choice of symbols, once the factor before it is joined.  The join is
refused before the symbols are. -/
def addChoice (ceiling : Ceiling) (d : Draft) (symbols : Except Error Alphabet) :
    Except Error Draft := do
  let level ← d.level.join ceiling
  let symbols ← symbols
  return { d with level := { level with last := some (.oneOf symbols.toList) } }

/-- Takes in one token, which stands at `offset`. -/
def step (config : Config) (ceiling : Ceiling) (d : Draft) : Nat × Token → Except Error Draft
  | (_, .symbol c) => d.addChoice ceiling (.ok (.ofList [c]))
  | (_, .dot) => d.addChoice ceiling (.ok config.dotAlphabet)
  | (offset, .bracket b) => d.addChoice ceiling (b.members config.maxClassSize offset)
  | (offset, .dangling) => d.addChoice ceiling (.error (.malformed .trailingBackslash offset))
  | (offset, .opening) => do
    let level ← d.level.join ceiling
    return ⟨.start, (offset, level) :: d.outer⟩
  | (_, .bar) => do
    let alternatives ← d.level.close ceiling
    return { d with level := ⟨some alternatives, none, none⟩ }
  | (offset, .closing) => do
    let group ← d.level.close ceiling
    match d.outer with
    | [] => throw (.malformed .strayClosing offset)
    | (_, level) :: outer => return ⟨{ level with last := some group }, outer⟩
  | (offset, .repetition sign) =>
    match d.level.last with
    | none => .error (.malformed (.nothingToRepeat sign) offset)
    | some factor => do
      let factor ← ceiling.repeatedOf sign factor
      return { d with level := { d.level with last := some factor } }

/-- Ends the pattern, unless a group is open. -/
def finish (ceiling : Ceiling) (d : Draft) : Except Error Nfa := do
  let whole ← d.level.close ceiling
  match d.outer with
  | [] => return whole
  | (offset, _) :: _ => throw (.malformed .unclosedGroup offset)

/-- Reads tokens from some place of a pattern on to its end. -/
def run (config : Config) (ceiling : Ceiling) (d : Draft) (tokens : List (Nat × Token)) :
    Except Error Nfa := do
  let d ← tokens.foldlM (step config ceiling) d
  d.finish ceiling

end Draft

/-- The automaton of a pattern, made while the pattern is read, after the depth of groups was
checked. -/
def Nfa.assemble (config : Config) (strategy : Strategy) (pattern : List Char) :
    Except Error Nfa := do
  let body := Body.ofPattern pattern
  let tokens := Token.scan body.offset body.text
  Assembly.checkDepth config.maxNestingDepth 0 tokens
  Draft.start.run config ⟨config.maxNfaStates, strategy⟩ tokens

/-- The automata of what has been read of a group, in the place of its trees. -/
def Level.draft (level : Level) : Draft.Level :=
  ⟨level.alternatives.map Sized.toNfa, level.front.map Sized.toNfa, level.last.map Sized.toNfa⟩

/-- The automata of what has been read, with the offsets of the open groups kept. -/
def Assembly.draft (a : Assembly) : Draft :=
  ⟨a.level.draft, a.outer.map fun (offset, level) => (offset, level.draft)⟩

/-! ### In step -/

namespace Draft

variable (config : Config) (ceiling : Ceiling)

theorem join_eq (level : PatternAutomata.Level) :
    level.draft.join ceiling = PatternAutomata.Level.draft <$> level.join ceiling := by
  obtain ⟨alternatives, front, last⟩ := level
  cases last with
  | none => rfl
  | some factor =>
      cases front with
      | none => rfl
      | some front =>
          simp only [Level.join, PatternAutomata.Level.join, PatternAutomata.Level.draft,
            Option.map_some, Ceiling.concatOf_eq, bind_map_left, map_bind, map_pure]
          rfl

theorem close_eq (level : PatternAutomata.Level) :
    level.draft.close ceiling = Sized.toNfa <$> level.close ceiling := by
  rw [Level.close, PatternAutomata.Level.close, join_eq, bind_map_left, map_bind]
  refine bind_congr fun joined => ?_
  have alternative : (joined.draft.front.getD .epsilon) = (joined.front.getD .empty).toNfa := by
    obtain ⟨_, front, _⟩ := joined
    cases front with
    | none => rfl
    | some front => rfl
  obtain ⟨alternatives, front, last⟩ := joined
  cases alternatives with
  | none => exact congrArg Except.ok alternative
  | some before =>
      rw [alternative]
      exact ceiling.unionOf_eq before _

theorem addChoice_eq (a : Assembly) (symbols : Except Error Alphabet) :
    a.draft.addChoice ceiling symbols = Assembly.draft <$> a.addChoice ceiling symbols := by
  have join := join_eq ceiling a.level
  simp only [addChoice, Assembly.addChoice, Assembly.draft, join, bind_map_left, map_bind,
    map_pure]
  rfl

/-- **A token is taken in as it is with trees**, and refused for the same cause if it is refused. -/
theorem step_eq (a : Assembly) (token : Nat × Token) :
    a.draft.step config ceiling token = Assembly.draft <$> a.step config ceiling token := by
  obtain ⟨offset, token⟩ := token
  cases token with
  | symbol c => exact addChoice_eq ceiling a _
  | dot => exact addChoice_eq ceiling a _
  | bracket b => exact addChoice_eq ceiling a _
  | dangling => exact addChoice_eq ceiling a _
  -- a token that may be refused is refused by the ceiling on both sides, for the same count
  | opening =>
      have join := join_eq ceiling a.level
      simp only [step, Assembly.step, Assembly.draft, join, bind_map_left, map_bind, map_pure]
      rfl
  | bar =>
      have close := close_eq ceiling a.level
      simp only [step, Assembly.step, Assembly.draft, close, bind_map_left, map_bind, map_pure]
      rfl
  | closing =>
      have close := close_eq ceiling a.level
      simp only [step, Assembly.step, Assembly.draft, close, bind_map_left, map_bind]
      refine bind_congr fun group => ?_
      obtain ⟨level, outer⟩ := a
      cases outer with
      | nil => rfl
      | cons first outer => rfl
  | repetition sign =>
      obtain ⟨⟨alternatives, front, last⟩, outer⟩ := a
      cases last with
      | none => rfl
      | some factor =>
          have repeated := ceiling.repeatedOf_eq factor sign
          simp only [step, Assembly.step, Assembly.draft, PatternAutomata.Level.draft,
            Option.map_some, repeated, bind_map_left, map_bind, map_pure]

theorem finish_eq (a : Assembly) :
    a.draft.finish ceiling = Sized.toNfa <$> a.finish ceiling := by
  have close := close_eq ceiling a.level
  simp only [finish, Assembly.finish, Assembly.draft, close, bind_map_left, map_bind]
  refine bind_congr fun whole => ?_
  obtain ⟨level, outer⟩ := a
  cases outer with
  | nil => rfl
  | cons first outer => rfl

theorem run_eq (a : Assembly) (tokens : List (Nat × Token)) :
    a.draft.run config ceiling tokens = Sized.toNfa <$> a.run config ceiling tokens := by
  have read : ∀ (tokens : List (Nat × Token)) (a : Assembly),
      tokens.foldlM (step config ceiling) a.draft =
        Assembly.draft <$> tokens.foldlM (Assembly.step config ceiling) a := by
    intro tokens
    induction tokens with
    | nil => exact fun a => rfl
    | cons token tokens ih =>
        intro a
        rw [List.foldlM_cons, List.foldlM_cons, step_eq, bind_map_left, map_bind]
        exact bind_congr ih
  rw [run, Assembly.run, read, bind_map_left, map_bind]
  exact bind_congr (finish_eq ceiling)

end Draft

/-- **Reading first and making the automaton then is the same.** -/
theorem Nfa.assemble_eq (config : Config) (strategy : Strategy) (pattern : List Char) :
    Nfa.assemble config strategy pattern = Nfa.ofPattern config strategy pattern := by
  have start : Draft.start = Assembly.start.draft := rfl
  simp only [Nfa.assemble, Nfa.ofPattern, Regex.parse, start, Draft.run_eq, bind_assoc,
    pure_bind]
  refine bind_congr fun _ => ?_
  exact (bind_pure_comp ..).symm

end PatternAutomata
