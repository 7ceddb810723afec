import PatternAutomata.Dfa.Run
import PatternAutomata.Direct
import PatternAutomata.Nfa.OfDfa
import PatternAutomata.Nfa.OfRegex
import PatternAutomata.Pattern.Estimate

/-!
# From patterns to automata

The ways from a pattern to an automaton, under a configuration.  `Dfa.ofPattern` is the one that
everything else is measured by, and it ends in a minimal automaton; `Dfa.unminimized` stops after
the powerset construction, `Nfa.minimalOfPattern` hands the minimal automaton out as a
nondeterministic one, and `Config.isMatch` runs it on an input.

## A guess may be taken back

Unless a strategy is configured, one is chosen from the expected number of states.  The
expectation may be too low, and then the automaton outgrows the capacity of dense sets.  This is
not the caller's fault, so the pattern is read once more with hashed sets; only a configured
strategy is ever reported to be too small.  Any other refusal is passed on as it is, since hashed
sets would not help.

## A simple shape saves work and changes nothing

Where the direct construction does not succeed, the general one is run and its answer stands.  So
there are two roads to the same automaton, with different ceilings along them, and the claim that
they lead to the same place is what makes `enableFastPaths` a switch that can be left on.
-/

namespace PatternAutomata

namespace Config

/-- The way of holding sets of states for a pattern: the configured one, or the one for the
expected number of states.  The expectation is read off the text of the pattern and is no
promise. -/
def strategyFor (config : Config) (pattern : List Char) : Strategy :=
  config.strategy.getD (.forEstimate (estimateStates pattern) config.bitsetThreshold)

end Config

namespace Dfa

/-- The automaton of a pattern as the powerset construction leaves it, for one way of
holding sets of states. -/
def unminimizedWith (config : Config) (strategy : Strategy) (pattern : List Char) :
    Except Error Dfa := do
  let nfa ← Nfa.ofPattern config strategy pattern
  strategy.determinize nfa config.maxDfaStates

/-- The automaton as the powerset construction leaves it.  Only a strategy that was chosen here,
and only for its capacity, is given up for the other one. -/
def unminimized (config : Config) (pattern : List Char) : Except Error Dfa :=
  let result := unminimizedWith config (config.strategyFor pattern) pattern
  match config.strategy, result with
  | none, .error (.capacityExceeded _ _) => unminimizedWith config .hash pattern
  | _, _ => result

/-- The minimal automaton of a pattern by the general construction. -/
def general (config : Config) (pattern : List Char) : Except Error Dfa := do
  let whole ← unminimized config pattern
  whole.minimize

/-- **The minimal automaton of a pattern**, by the direct construction where there is one and it
succeeds, and by the general one otherwise. -/
def ofPattern (config : Config) (pattern : List Char) : Except Error Dfa :=
  if config.enableFastPaths then
    match direct? config pattern with
    | some dfa => .ok dfa
    | none => general config pattern
  else general config pattern

end Dfa

/-- The minimal automaton of a pattern as a nondeterministic automaton.  Hashed sets are taken on
this way whatever is configured, so no capacity is in question. -/
def Nfa.minimalOfPattern (config : Config) (pattern : List Char) : Except Error Nfa := do
  let nfa ← Nfa.ofPattern config .hash pattern
  nfa.minimize .hash config.maxDfaStates

/-- Whether a pattern matches the whole of an input. -/
def Config.isMatch (config : Config) (pattern input : List Char) : Except Error Bool := do
  let dfa ← Dfa.ofPattern config pattern
  return dfa.accepts input

end PatternAutomata
