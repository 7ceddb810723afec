import PatternAutomata.Dfa.Graph
import PatternAutomata.Proofs.Alphabet
import PatternAutomata.Proofs.Dfa.Canonical
import PatternAutomata.Proofs.Text.Unescaped

/-!
# What a drawing tells

In a drawing the edges between the same two states are merged, and the symbols are told by the
text of a label only.  Still all edges can be read off it, and `Dfa.drawing_faithful` says so in
both directions: automata are drawn alike iff they have as many states and the same edges.

## From edges to labels and back

`Dfa.mem_graph` describes the merged edges by the edges: between two states there is one iff some
symbol leads from one to the other, and it has all of these symbols, ascending.  There is never a
second one between the same two states (`Dfa.nodup_graph_ends`).  What remains is the text.
Written forms are joined by commas without regard to symbols that are commas, and
`Dfa.unescapeList_edgeLabel` reads them back nevertheless, by a function that is fixed once for
all labels.

## One symbol is enough

A label has at least one symbol, and this is needed: without symbols the text would be empty, and
an empty text is no written form.  A merged edge has a symbol because it comes from an edge.
-/

namespace PatternAutomata.Dfa

variable {d e : Dfa} {s t : Nat} {c : Char} {symbols : List Char}

/-! ### Merged edges -/

/-- The symbols under which a state moves to another one, as they are listed. -/
theorem State.pairwise_filter_moves (state : State) (t : Nat) :
    ((state.moves.toList.filter (·.2 == t)).map (·.1)).Pairwise (· < ·) := by
  rw [List.pairwise_map]
  refine (state.moves.ordered_keys_toList.imp fun h => ?_).filter _
  exact compareOfLessAndEq_eq_lt.1 h

theorem State.mem_filter_moves {state : State} :
    c ∈ (state.moves.toList.filter (·.2 == t)).map (·.1) ↔ state.moves[c]? = some t := by
  rw [List.mem_map]
  constructor
  · rintro ⟨⟨d, u⟩, h, rfl⟩
    rw [List.mem_filter, Std.ExtTreeMap.mem_toList_iff_getElem?_eq_some, beq_iff_eq] at h
    exact h.2 ▸ h.1
  · intro h
    have listed : (c, t) ∈ state.moves.toList :=
      Std.ExtTreeMap.mem_toList_iff_getElem?_eq_some.2 h
    exact ⟨(c, t), List.mem_filter.2 ⟨listed, beq_self_eq_true t⟩, rfl⟩

/-- **The merged edges that leave a state** have a symbol each, and all symbols that lead to their
target.  As the symbols ascend, the list is determined by its members. -/
theorem State.mem_merged {state : State} :
    (t, symbols) ∈ state.merged ↔
      symbols ≠ [] ∧ symbols.Pairwise (· < ·) ∧ ∀ c, c ∈ symbols ↔ state.moves[c]? = some t := by
  have target : t ∈ (StateSet.ofList (state.moves.toList.map (·.2))).toList ↔
      ∃ c : Char, state.moves[c]? = some t := by
    simp [Std.ExtTreeSet.mem_toList, StateSet.mem_ofList,
      Std.ExtTreeMap.mem_toList_iff_getElem?_eq_some]
  unfold merged
  rw [List.mem_map]
  constructor
  · rintro ⟨u, hu, h⟩
    cases h
    obtain ⟨c, hc⟩ := target.1 hu
    exact ⟨List.ne_nil_of_mem (mem_filter_moves.2 hc), state.pairwise_filter_moves t,
      fun c => mem_filter_moves⟩
  · rintro ⟨hne, sorted, hmem⟩
    obtain ⟨c, hc⟩ := List.exists_mem_of_ne_nil symbols hne
    refine ⟨t, target.2 ⟨c, (hmem c).1 hc⟩, ?_⟩
    have listed : (state.moves.toList.filter (·.2 == t)).map (·.1) = symbols :=
      (state.pairwise_filter_moves t).eq_of_mem_iff sorted fun c =>
        mem_filter_moves.trans (hmem c).symm
    rw [listed]

/-- **The merged edges** have a symbol each, and all symbols that lead from one end to the other. -/
theorem mem_graph : (s, t, symbols) ∈ d.graph ↔
    symbols ≠ [] ∧ symbols.Pairwise (· < ·) ∧ ∀ c, c ∈ symbols ↔ d.transition s c = some t := by
  have row : (s, t, symbols) ∈ d.graph ↔
      ∃ state, d.states[s]? = some state ∧ (t, symbols) ∈ state.merged := by
    simp only [graph, List.mem_flatMap, List.mem_map, Prod.exists, Prod.mk.injEq, mem_numbered]
    constructor
    · rintro ⟨_, state, hstate, _, _, h, rfl, rfl, rfl⟩
      exact ⟨state, hstate, h⟩
    · rintro ⟨state, hstate, h⟩
      exact ⟨s, state, hstate, t, symbols, h, rfl, rfl, rfl⟩
  rw [row]
  unfold transition
  cases hstate : d.states[s]? with
  | some state =>
      simp only [Option.some.injEq, exists_eq_left']
      exact State.mem_merged
  | none =>
      refine iff_of_false (by simp) ?_
      rintro ⟨hne, -, hmem⟩
      obtain ⟨c, hc⟩ := List.exists_mem_of_ne_nil symbols hne
      cases (hmem c).1 hc

/-- Every edge is in a merged one, so nothing is lost by merging. -/
theorem exists_mem_graph (h : d.transition s c = some t) :
    ∃ symbols, (s, t, symbols) ∈ d.graph := by
  unfold transition at h
  cases hstate : d.states[s]? with
  | none =>
      rw [hstate] at h
      cases h
  | some state =>
      rw [hstate] at h
      refine ⟨(state.moves.toList.filter (·.2 == t)).map (·.1), mem_graph.2
        ⟨List.ne_nil_of_mem (State.mem_filter_moves.2 h), state.pairwise_filter_moves t,
          fun c => ?_⟩⟩
      rw [State.mem_filter_moves, transition, hstate]

/-- **Between two states there is one merged edge at most.** -/
theorem nodup_graph_ends (d : Dfa) : (d.graph.map fun edge => (edge.1, edge.2.1)).Nodup := by
  have distinct : ∀ s : State, (StateSet.ofList (s.moves.toList.map (·.2))).toList.Nodup :=
    fun s => nodup_toList _
  have shape : (d.graph.map fun edge => (edge.1, edge.2.1)) =
      d.numbered.flatMap fun row =>
        (StateSet.ofList (row.2.moves.toList.map (·.2))).toList.map fun t => (row.1, t) := by
    simp only [graph, State.merged, List.map_flatMap, List.map_map]
    rfl
  rw [shape]
  exact d.nodup_flatMap_numbered distinct

theorem graph_eq_of_transition_eq (hn : d.numStates = e.numStates)
    (h : ∀ s c, d.transition s c = e.transition s c) : d.graph = e.graph := by
  have rows := flatMap_numbered_eq_of_transition_eq hn h fun number moves =>
    (State.merged ⟨false, moves, ∅⟩).map fun edge => (number, edge.1, edge.2)
  exact rows

/-! ### Drawings -/

/-- **The symbols are read back from the text of a label.**  Only the label without symbols is
excluded, and no merged edge has it. -/
theorem unescapeList_edgeLabel (h : symbols ≠ []) :
    Text.unescapeList (edgeLabel symbols) = some symbols :=
  Text.unescapeList_intercalate h

/-- A comma is written as it is, and so is what separates it from the next symbol. -/
example : edgeLabel ['+', ',', '\\'] = ['+', ',', ',', ',', '\\', '\\'] := by decide

theorem mem_drawing {label : List Char} :
    (s, t, label) ∈ d.drawing.2 ↔
      ∃ symbols, (s, t, symbols) ∈ d.graph ∧ edgeLabel symbols = label := by
  simp [drawing]

/-- Where automata are drawn alike, one has the edges of the other.  The hypothesis is symmetric,
so it is enough to prove this in one direction. -/
theorem transition_of_drawing_eq (h : d.drawing = e.drawing) (edge : d.transition s c = some t) :
    e.transition s c = some t := by
  obtain ⟨symbols, hd⟩ := exists_mem_graph edge
  have drawn : (s, t, edgeLabel symbols) ∈ e.drawing.2 := h ▸ mem_drawing.2 ⟨symbols, hd, rfl⟩
  obtain ⟨symbols', he, same⟩ := mem_drawing.1 drawn
  obtain ⟨hne, -, hmem⟩ := mem_graph.1 hd
  obtain ⟨hne', -, hmem'⟩ := mem_graph.1 he
  -- the same text is read as the same symbols
  have read := unescapeList_edgeLabel hne'
  rw [same, unescapeList_edgeLabel hne, Option.some.injEq] at read
  exact (hmem' c).1 (read ▸ (hmem c).2 edge)

/-- **Automata are drawn alike iff they have as many states and the same edges.**  In a drawing
there is an edge from one state to another iff some symbol leads there, and there is one at most;
and what is read from the text of its label are the symbols that do, ascending.  No hypothesis is
made about the automata: the symbols may be commas, quotes or backslashes. -/
theorem drawing_faithful (d e : Dfa) :
    (d.drawing = e.drawing ↔
      d.numStates = e.numStates ∧ ∀ s c, d.transition s c = e.transition s c) ∧
    (d.drawing.2.map fun edge => (edge.1, edge.2.1)).Nodup ∧
    (∀ s t, (∃ label, (s, t, label) ∈ d.drawing.2) ↔ ∃ c, d.transition s c = some t) ∧
    ∀ s t label, (s, t, label) ∈ d.drawing.2 →
      ∃ symbols, Text.unescapeList label = some symbols ∧ symbols.Pairwise (· < ·) ∧
        ∀ c, c ∈ symbols ↔ d.transition s c = some t := by
  refine ⟨⟨fun h => ⟨?_, fun s c => ?_⟩, fun ⟨hn, h⟩ => ?_⟩, ?_, fun s t => ⟨?_, ?_⟩,
    fun s t label hlabel => ?_⟩
  -- every state is drawn as a node, also one that has no edge
  · have nodes := congrArg (fun drawing => drawing.1.length) h
    simpa [drawing] using nodes
  · ext t
    exact ⟨transition_of_drawing_eq h, transition_of_drawing_eq h.symm⟩
  · rw [drawing, drawing, hn, graph_eq_of_transition_eq hn h]
  · have ends : (d.drawing.2.map fun edge => (edge.1, edge.2.1)) =
        d.graph.map fun edge => (edge.1, edge.2.1) := by
      rw [drawing, List.map_map]
      rfl
    rw [ends]
    exact d.nodup_graph_ends
  · rintro ⟨label, hlabel⟩
    obtain ⟨symbols, hgraph, -⟩ := mem_drawing.1 hlabel
    obtain ⟨hne, -, hmem⟩ := mem_graph.1 hgraph
    obtain ⟨c, hc⟩ := List.exists_mem_of_ne_nil symbols hne
    exact ⟨c, (hmem c).1 hc⟩
  · rintro ⟨c, edge⟩
    obtain ⟨symbols, hgraph⟩ := exists_mem_graph edge
    exact ⟨edgeLabel symbols, mem_drawing.2 ⟨symbols, hgraph, rfl⟩⟩
  · obtain ⟨symbols, hgraph, rfl⟩ := mem_drawing.1 hlabel
    obtain ⟨hne, sorted, hmem⟩ := mem_graph.1 hgraph
    exact ⟨symbols, unescapeList_edgeLabel hne, sorted, hmem⟩

end PatternAutomata.Dfa
