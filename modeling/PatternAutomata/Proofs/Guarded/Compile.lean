import PatternAutomata.Proofs.Compile
import PatternAutomata.Proofs.Guarded.Direct
import PatternAutomata.Proofs.Pattern.Draft
import PatternAutomata.Proofs.Stepwise

/-!
# Guarded ways from patterns to automata

Here are the ways from a pattern to an automaton once more, made of guarded computations and of
automata that are put together state by state and edge by edge.  Every lookup on the way may fail,
and an edge may be filed with a state that is not there.  None of this happens, so they come out
as the ways without guards: `Guarded.unminimized_eq`, `Guarded.ofPattern_eq`,
`Guarded.minimalOfPattern_eq` and `Guarded.isMatch_eq` are equations between whole functions, for
every configuration and every pattern.

## What is guarded where

The reader, the powerset construction and the conversion back work on automata under construction,
and their guards are those of `Nfa.Stepwise` and of `Strategy.determinizeStepwise`, which refuse
where a state is missing.  Prefix trees, tables and partitions are arrays that are looked up by
number; their guards are `Guarded.expect` and `Guarded.require`.  The functions of this module
only put the two together, in the order in which the ways without guards do it.

The fallback of the powerset construction is made on one kind of refusal.  It is written here by
cases of the guarded result, so that a lookup that fails would not be mistaken for a set that does
not fit.
-/

namespace PatternAutomata.Guarded

/-- The nondeterministic automaton of a pattern, made while the pattern is read and edge by edge. -/
def ofRegex (config : Config) (strategy : Strategy) (pattern : List Char) : Guarded Nfa :=
  lift (Nfa.assemble config strategy pattern)

/-- The automaton of a pattern as the powerset construction leaves it, for one way of holding sets
of states. -/
def unminimizedWith (config : Config) (strategy : Strategy) (pattern : List Char) :
    Guarded Dfa := do
  let nfa ← ofRegex config strategy pattern
  lift (strategy.determinizeStepwise nfa config.maxDfaStates)

/-- The automaton of a pattern as the powerset construction leaves it.  Only a set that does not
fit is a reason to try once more with hashed sets, and only where the strategy was not asked for. -/
def unminimized (config : Config) (pattern : List Char) : Guarded Dfa :=
  let result := unminimizedWith config (config.strategyFor pattern) pattern
  match config.strategy, result with
  | none, .error (.refused (.capacityExceeded _ _)) => unminimizedWith config .hash pattern
  | _, _ => result

/-- The minimal automaton of a pattern by the general construction, which is by way of subsets. -/
def general (config : Config) (pattern : List Char) : Guarded Dfa := do
  let whole ← unminimized config pattern
  minimize whole

/-- The minimal automaton of a pattern.  Where a fast path is refused, the general construction is
used; where a lookup on it fails, nothing is. -/
def ofPattern (config : Config) (pattern : List Char) : Guarded Dfa :=
  if config.enableFastPaths then do
    match ← direct? config pattern with
    | some dfa => return dfa
    | none => general config pattern
  else general config pattern

/-- The minimal automaton of a pattern as a nondeterministic automaton.  Hashed sets are used
throughout, as there is no fallback here. -/
def minimalOfPattern (config : Config) (pattern : List Char) : Guarded Nfa := do
  let nfa ← ofRegex config .hash pattern
  let whole ← lift (Strategy.hash.determinizeStepwise nfa config.maxDfaStates)
  let minimal ← minimize whole
  lift (Nfa.Stepwise.ofDfa .hash minimal)

/-- Whether a pattern matches the whole of an input, by way of its minimal automaton. -/
def isMatch (config : Config) (pattern input : List Char) : Guarded Bool := do
  let dfa ← ofPattern config pattern
  return dfa.accepts input

variable (config : Config) (strategy : Strategy) (pattern input : List Char)

theorem ofRegex_eq : ofRegex config strategy pattern =
    lift (Nfa.ofPattern config strategy pattern) := by
  rw [ofRegex, Nfa.assemble_eq]

theorem unminimizedWith_eq : unminimizedWith config strategy pattern =
    lift (Dfa.unminimizedWith config strategy pattern) := by
  rw [unminimizedWith, Dfa.unminimizedWith, ofRegex_eq, lift_bind]
  refine bind_congr fun nfa => ?_
  rw [strategy.determinizeStepwise_eq]

/-- **The powerset construction of a pattern never looks up anything that is not there.**
Whatever it is refused for, it is refused for without guards too. -/
theorem unminimized_eq : unminimized config pattern = lift (Dfa.unminimized config pattern) := by
  rw [unminimized, Dfa.unminimized]
  simp only [unminimizedWith_eq]
  cases config.strategy with
  | some chosen => rfl
  | none =>
      cases Dfa.unminimizedWith config (config.strategyFor pattern) pattern with
      | ok d => rfl
      | error e =>
          cases e with
          | malformed fault offset => rfl
          | capacityExceeded capacity requested => rfl
          | stateLimitExceeded states max => rfl
          | breached breach => rfl

theorem general_eq : general config pattern = lift (Dfa.general config pattern) := by
  rw [general, Dfa.general, unminimized_eq]
  cases hwhole : Dfa.unminimized config pattern with
  | error e => rfl
  | ok whole =>
      obtain ⟨e, he⟩ := Dfa.exists_derivation_of_unminimized hwhole
      exact minimize_eq (Dfa.recognizes_of_unminimized hwhole he).pos

/-- **The construction of the minimal automaton never looks up anything that is not there**, by
the fast paths or without them. -/
theorem ofPattern_eq : ofPattern config pattern = lift (Dfa.ofPattern config pattern) := by
  rw [ofPattern, Dfa.ofPattern, direct?_eq, general_eq]
  cases config.enableFastPaths with
  | false => rfl
  | true =>
      cases Dfa.direct? config pattern with
      | none => rfl
      | some d => rfl

/-- **Nor does its construction as a nondeterministic automaton**, which minimizes and converts
back. -/
theorem minimalOfPattern_eq :
    minimalOfPattern config pattern = lift (Nfa.minimalOfPattern config pattern) := by
  rw [minimalOfPattern, Nfa.minimalOfPattern, ofRegex_eq, lift_bind]
  cases hnfa : Nfa.ofPattern config .hash pattern with
  | error e => rfl
  | ok nfa =>
      simp only [lift_ok, ok_bind, Nfa.minimize, Strategy.determinizeStepwise_eq, lift_bind]
      cases hwhole : Strategy.hash.determinize nfa config.maxDfaStates with
      | error e => rfl
      | ok whole =>
          have det := Strategy.determinizes_of_determinize (Nfa.wellFormed_of_ofPattern hnfa)
            hwhole
          obtain ⟨m, hm, canonical, -⟩ :=
            Dfa.minimize_canonical det.built det.pos det.total det.accessible
          simp only [lift_ok, ok_bind, minimize_eq det.pos, hm,
            Nfa.Stepwise.ofDfa_eq canonical.built.wellFormed]

/-- **Nor does matching.**  The input may have any symbols, since a symbol that is not in the
alphabet is no lookup out of range. -/
theorem isMatch_eq : isMatch config pattern input = lift (config.isMatch pattern input) := by
  rw [isMatch, Config.isMatch, ofPattern_eq, lift_bind]
  rfl

end PatternAutomata.Guarded
