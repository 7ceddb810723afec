import PatternAutomata.Dfa.Basic

/-!
# Completion

A deterministic automaton is completed by sending every missing edge to one dead state.
`Dfa.missing` lists the states and symbols without an edge; if there are none, `Dfa.complete`
leaves the automaton as it is and adds nothing.  Otherwise the dead state gets the next number, it
loops under every symbol, and the missing edges follow.

The edges are added like any others, so in principle one of them could be refused.  `Dfa.complete`
therefore has the type of a computation that may be refused, and that it never is has to be
proved: the list of gaps is read off the automaton before the dead state is there, and none of its
entries has a target yet.
-/

namespace PatternAutomata.Dfa

/-- The states and symbols without an edge, by state and then by symbol.  Only symbols of the
alphabet count. -/
def missing (dfa : Dfa) : List (Nat × Char) :=
  let symbols := dfa.alphabet.toList
  (List.range dfa.numStates).flatMap fun s =>
    (symbols.filter fun c => (dfa.transition s c).isNone).map fun c => (s, c)

/-- Makes every edge exist.  If one is missing, a state is added that does not accept and that no
edge leaves again, and every missing edge is sent there.  The number of this state is told along
with the automaton, since nothing else would tell it from a dead state that was there before. -/
def complete (dfa : Dfa) : Except Error (Dfa × Option Nat) :=
  match dfa.missing with
  | [] => .ok (dfa, none)
  | gaps => do
    let dead := dfa.numStates
    let loops := dfa.alphabet.toList.map fun c => (dead, c, dead)
    let filled ← (dfa.addState false).addTransitions
      (loops ++ gaps.map fun (s, c) => (s, c, dead))
    return (filled, some dead)

end PatternAutomata.Dfa
