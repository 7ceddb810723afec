import PatternAutomata.Nfa.OfDfa
import PatternAutomata.Proofs.Dfa.Building
import PatternAutomata.Proofs.Dfa.Run
import PatternAutomata.Proofs.Nfa.Path

/-!
# Paths through a deterministic automaton

As a nondeterministic automaton a deterministic one has the same edges and no others, so that its
paths are its runs (`Dfa.path_toNfa_iff`) and the same words are accepted (`Dfa.accepts_toNfa`).

Nothing is asked of the deterministic automaton.  Its rows list a symbol once at most, since they
are read off the function that tells the target, and so the first entry found under a symbol is
the only one.
-/

namespace PatternAutomata.Dfa

variable {d : Dfa} {s t : Nat} {c : Char} {w : List Char}

@[simp] theorem numStates_toNfa (d : Dfa) : d.toNfa.numStates = d.numStates := by
  simp [toNfa, Nfa.numStates, numStates]

/-- The edges of a row, looked up by symbol.  An entry that came second under its symbol would not
be found, so they have to be distinct. -/
theorem lookup_map_singleton {moves : List (Char × Nat)}
    (hdistinct : moves.Pairwise fun e e' => e.1 ≠ e'.1) :
    t ∈ ((moves.map fun (c, target) => (c, StateSet.singleton target)).lookup c).getD ∅ ↔
      (c, t) ∈ moves := by
  induction moves with
  | nil => simp
  | cons move moves ih =>
      obtain ⟨b, target⟩ := move
      obtain ⟨hb, hdistinct⟩ := List.pairwise_cons.1 hdistinct
      rw [List.map_cons, List.lookup_cons]
      by_cases hc : c = b
      · subst hc
        have hnot : (c, t) ∉ moves := fun hmem => hb (c, t) hmem rfl
        simp [hnot, StateSet.mem_singleton]
      · have hbeq : (c == b) = false := beq_false_of_ne hc
        simp only [hbeq]
        rw [ih hdistinct]
        simp [hc]

/-- The edges are the same, state by state and symbol by symbol. -/
theorem mem_on_toNfa : t ∈ d.toNfa.on s c ↔ d.transition s c = some t := by
  cases hs : d.states[s]? with
  | none =>
      have hlt : d.numStates ≤ s := Array.getElem?_eq_none_iff.1 hs
      rw [Nfa.on_eq_empty_of_le (d.numStates_toNfa ▸ hlt), transition_eq_none_of_le hlt]
      simp
  | some state =>
      have hrow : d.toNfa.rows[s]? = some state.toRow := by
        simp [toNfa, hs]
      have hdistinct : state.moves.toList.Pairwise fun e e' => e.1 ≠ e'.1 :=
        state.moves.distinct_keys_toList.imp fun h heq => h (by simp [heq])
      rw [Nfa.on_eq hrow, transition, hs]
      show t ∈ ((state.moves.toList.map fun (c, target) =>
        (c, StateSet.singleton target)).lookup c).getD ∅ ↔ _
      rw [lookup_map_singleton hdistinct, Std.ExtTreeMap.mem_toList_iff_getElem?_eq_some]

/-- No edge is silent, in any state. -/
theorem silent_toNfa (d : Dfa) (s : Nat) : d.toNfa.silent s = ∅ := by
  cases hs : d.states[s]? with
  | none =>
      have hlt : d.numStates ≤ s := Array.getElem?_eq_none_iff.1 hs
      exact Nfa.silent_eq_empty_of_le (d.numStates_toNfa ▸ hlt)
  | some state =>
      have hrow : d.toNfa.rows[s]? = some state.toRow := by
        simp [toNfa, hs]
      rw [Nfa.silent_eq hrow]
      rfl

/-- **The paths are the runs**, from any state.  A path reads a symbol with each edge, as there
are no others. -/
theorem path_toNfa_iff : d.toNfa.Path s w t ↔ d.runFrom s w = some t := by
  constructor
  · intro path
    induction path with
    | nil s => rfl
    | @silent s r u v e _ _ =>
        rw [silent_toNfa] at e
        exact absurd e Std.ExtTreeSet.not_mem_empty
    | symbol e _ ih =>
        rw [runFrom_cons, mem_on_toNfa.1 e]
        exact ih
  · intro hrun
    induction w generalizing s with
    | nil =>
        cases hrun
        exact .nil _
    | cons c w ih =>
        rw [runFrom_cons, Option.bind_eq_some_iff] at hrun
        obtain ⟨next, hnext, hrun⟩ := hrun
        exact .symbol (mem_on_toNfa.2 hnext) (ih hrun)

/-- **The same words are accepted**, as acceptance is a path on one side and a run on the other. -/
theorem accepts_toNfa (d : Dfa) (w : List Char) : d.toNfa.accepts w = d.accepts w := by
  rw [Bool.eq_iff_iff, Nfa.accepts_iff, accepts, acceptsFrom_iff]
  constructor
  · rintro ⟨t, ht, path⟩
    exact ⟨t, path_toNfa_iff.1 path, mem_acceptStates.1 (StateSet.mem_ofList.1 ht)⟩
  · rintro ⟨t, hrun, hacc⟩
    exact ⟨t, StateSet.mem_ofList.2 (mem_acceptStates.2 hacc), path_toNfa_iff.2 hrun⟩

end PatternAutomata.Dfa
