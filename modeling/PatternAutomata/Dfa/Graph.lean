import PatternAutomata.Dfa.Basic

/-!
# Deterministic automata as graphs

For drawing, the edges between the same two states are merged into one, and its label lists their
symbols.  `State.merged` does this for the edges that leave one state, `Dfa.graph` for the
automaton, and `Dfa.drawing` is what a picture has to go by: the states, and the merged edges with
the texts of their labels.

A drawing is a list, and the order of its entries is part of it.  Edges come by source and then by
target, and the symbols of a label ascend, so the same automaton is always drawn the same way.
`Dfa.edgeLabel` puts commas between the written forms of the symbols without regard to symbols
that are commas themselves; that labels can be read back all the same is proved where drawings are
compared.
-/

namespace PatternAutomata.Dfa

/-- The name of a state in a drawing. -/
def stateName (state : Nat) : String :=
  "q" ++ toString state

/-- The merged edges that leave a state: its targets, ascending, each with the symbols that lead
there.  A target comes up once, however many symbols lead to it. -/
def State.merged (s : State) : List (Nat × List Char) :=
  let moves := s.moves.toList
  (StateSet.ofList (moves.map (·.2))).toList.map fun target =>
    (target, (moves.filter (·.2 == target)).map (·.1))

/-- The merged edges, by source and then by target, with their symbols in order. -/
def graph (dfa : Dfa) : List (Nat × Nat × List Char) :=
  dfa.numbered.flatMap fun (source, s) =>
    s.merged.map fun (target, symbols) => (source, target, symbols)

/-- The text of a label: the written forms of the symbols with commas between them. -/
def edgeLabel (symbols : List Char) : List Char :=
  List.intercalate [','] (symbols.map Text.escape)

/-- The states, and the merged edges with the texts of their labels.  Acceptance, the start and
the alphabet are shown by other means and are no part of this. -/
def drawing (dfa : Dfa) : List Nat × List (Nat × Nat × List Char) :=
  (List.range dfa.numStates,
    dfa.graph.map fun (source, target, symbols) => (source, target, edgeLabel symbols))

end PatternAutomata.Dfa
