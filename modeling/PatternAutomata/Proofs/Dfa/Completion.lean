import Mathlib.Data.List.Perm.Subperm
import Mathlib.Data.List.Nodup
import Mathlib.Data.Nat.Basic
import Mathlib.Order.Basic
import PatternAutomata.Dfa.Completion
import PatternAutomata.Proofs.Alphabet
import PatternAutomata.Proofs.Dfa.Building
import PatternAutomata.Proofs.Dfa.Run

/-!
# Complete automata

An automaton is complete if no edge is missing (`Dfa.Total`).  Completion adds at most one state,
from which nothing is accepted, and leaves the language as it is.

## Counting

`Dfa.isComplete` compares two numbers.  That it is right (`Dfa.isComplete_iff`) is a counting
argument: the edges, listed by source and symbol, are among all pairs of a state and a symbol,
neither list has anything twice, and so they are as many iff they are the same.  Each of these
facts needs a part of what well formed means, so the hypothesis is there for good: an automaton
with an edge under a symbol that it does not know could have the right number of edges and still
lack one.

## Completion as a relation

`Dfa.Sunk` says what an automaton is like whose missing edges have been sent to one new state.
`Dfa.complete_ok` says that completion succeeds and ends in such an automaton, unless it has
nothing to do.  That the new state is dead is then no separate fact: by `Dfa.Sunk.acceptsFrom_eq`
the same words are accepted from every number as before, and from a number that named no state
nothing was accepted.
-/

namespace PatternAutomata.Dfa

variable {dfa whole : Dfa}

/-- Every state has an edge under every symbol of the alphabet.  States that are not reached count
as well. -/
def Total (dfa : Dfa) : Prop :=
  ∀ s, s < dfa.numStates → ∀ c ∈ dfa.alphabet, ∃ t, dfa.transition s c = some t

/-! ### The list of all edges -/

theorem mem_numbered {number : Nat} {s : State} :
    (number, s) ∈ dfa.numbered ↔ dfa.states[number]? = some s := by
  simp [numbered, List.mem_zipIdx_iff_getElem?]

/-- **The list of all edges holds the edges and nothing else.** -/
theorem mem_transitions {s : Nat} {c : Char} {t : Nat} :
    (s, c, t) ∈ dfa.transitions ↔ dfa.transition s c = some t := by
  unfold transitions transition
  simp only [List.mem_flatMap, List.mem_map, Prod.exists, Prod.mk.injEq, mem_numbered,
    Std.ExtTreeMap.mem_toList_iff_getElem?_eq_some]
  constructor
  · rintro ⟨number, state, hstate, d, u, hmove, rfl, rfl, rfl⟩
    rw [hstate]
    exact hmove
  · intro h
    cases hstate : dfa.states[s]? with
    | none =>
        rw [hstate] at h
        cases h
    | some state =>
        rw [hstate] at h
        exact ⟨s, state, hstate, c, t, h, rfl, rfl, rfl⟩

/-- What the states have without repetition is without repetition once it is named with them. -/
theorem nodup_flatMap_numbered {β : Type} (dfa : Dfa) {entries : State → List β}
    (nodup : ∀ s, (entries s).Nodup) :
    (dfa.numbered.flatMap fun (number, s) => (entries s).map fun b => (number, b)).Nodup := by
  rw [List.nodup_flatMap]
  refine ⟨fun (number, s) _ => (nodup s).map fun b b' h => congrArg Prod.snd h, ?_⟩
  unfold numbered
  rw [List.pairwise_map]
  have indices : (dfa.states.toList.zipIdx.map (·.2)).Nodup := by
    rw [List.zipIdx_map_snd]
    exact List.nodup_range'
  rw [List.Nodup, List.pairwise_map] at indices
  refine indices.imp ?_
  rintro ⟨s, i⟩ ⟨s', i'⟩ hne e he he'
  obtain ⟨_, _, rfl⟩ := List.mem_map.1 he
  obtain ⟨_, _, h⟩ := List.mem_map.1 he'
  exact hne (congrArg Prod.fst h).symm

/-- No two entries of the list of all edges have the same source and symbol. -/
theorem nodup_transitions_keys (dfa : Dfa) :
    (dfa.transitions.map fun e => (e.1, e.2.1)).Nodup := by
  have distinct : ∀ s : State, (s.moves.toList.map (·.1)).Nodup := by
    intro s
    rw [List.Nodup, List.pairwise_map]
    refine s.moves.distinct_keys_toList.imp fun h e => h ?_
    rw [e]
    exact Std.ReflCmp.compare_self
  have shape : (dfa.transitions.map fun e => (e.1, e.2.1)) =
      dfa.numbered.flatMap fun (number, s) =>
        (s.moves.toList.map (·.1)).map fun c => (number, c) := by
    simp only [transitions, List.map_flatMap, List.map_map]
    rfl
  rw [shape]
  exact dfa.nodup_flatMap_numbered distinct

/-- All states paired with all symbols of the alphabet. -/
def places (dfa : Dfa) : List (Nat × Char) :=
  (List.range dfa.numStates).flatMap fun s => dfa.alphabet.toList.map fun c => (s, c)

theorem mem_places {s : Nat} {c : Char} :
    (s, c) ∈ dfa.places ↔ s < dfa.numStates ∧ c ∈ dfa.alphabet := by
  simp [places, Std.ExtTreeSet.mem_toList]

theorem length_places (dfa : Dfa) :
    dfa.places.length = dfa.numStates * dfa.alphabet.size := by
  simp [places, List.length_flatMap, Std.ExtTreeSet.length_toList]

theorem nodup_places (dfa : Dfa) : dfa.places.Nodup := by
  unfold places
  rw [List.nodup_flatMap]
  constructor
  · intro s _
    exact (nodup_toList dfa.alphabet).map fun c d h => congrArg Prod.snd h
  · refine List.nodup_range.imp fun {s s'} hne => ?_
    intro e he he'
    simp only [List.mem_map] at he he'
    obtain ⟨_, _, rfl⟩ := he
    obtain ⟨_, _, h⟩ := he'
    exact hne (congrArg Prod.fst h).symm

/-- **The count of edges tells whether an edge is missing.**  The automaton has to be well formed:
only then is every edge in one of the places that are counted. -/
theorem isComplete_iff (wf : dfa.WellFormed) : dfa.isComplete = true ↔ dfa.Total := by
  have count : dfa.isComplete = true ↔
      (dfa.transitions.map fun e => (e.1, e.2.1)).length = dfa.places.length := by
    rw [isComplete, beq_iff_eq, length_places, List.length_map]
    rfl
  have inside : (dfa.transitions.map fun e => (e.1, e.2.1)) ⊆ dfa.places := by
    rintro ⟨s, c⟩ h
    obtain ⟨⟨s', c', t⟩, hmem, heq⟩ := List.mem_map.1 h
    rw [mem_transitions] at hmem
    cases heq
    exact mem_places.2 ⟨lt_of_transition_eq_some hmem, wf.mem_alphabet hmem⟩
  rw [count]
  constructor
  · intro hlen s hs c hc
    have perm := ((nodup_transitions_keys dfa).subperm inside).perm_of_length_le
      (Nat.le_of_eq hlen.symm)
    obtain ⟨⟨s', c', t⟩, hmem, heq⟩ :=
      List.mem_map.1 (perm.mem_iff.2 (mem_places.2 ⟨hs, hc⟩))
    cases heq
    exact ⟨t, mem_transitions.1 hmem⟩
  · intro total
    refine le_antisymm ((nodup_transitions_keys dfa).subperm inside).length_le
      ((nodup_places dfa).subperm ?_).length_le
    rintro ⟨s, c⟩ h
    obtain ⟨hs, hc⟩ := mem_places.1 h
    obtain ⟨t, ht⟩ := total s hs c hc
    exact List.mem_map.2 ⟨(s, c, t), mem_transitions.2 ht, rfl⟩

/-! ### Completion -/

theorem mem_missing {s : Nat} {c : Char} :
    (s, c) ∈ dfa.missing ↔
      s < dfa.numStates ∧ c ∈ dfa.alphabet ∧ dfa.transition s c = none := by
  simp [missing, Std.ExtTreeSet.mem_toList]

theorem missing_eq_nil_iff : dfa.missing = [] ↔ dfa.Total := by
  rw [List.eq_nil_iff_forall_not_mem]
  constructor
  · intro h s hs c hc
    refine Option.ne_none_iff_exists'.1 fun hnone => h (s, c) (mem_missing.2 ⟨hs, hc, hnone⟩)
  · rintro total ⟨s, c⟩ h
    obtain ⟨hs, hc, hnone⟩ := mem_missing.1 h
    obtain ⟨t, ht⟩ := total s hs c hc
    rw [ht] at hnone
    cases hnone

/-- `whole` is `dfa` with one state more, to which all missing edges lead, its own among them.
The edges are described by an equivalence, so nothing else was added. -/
structure Sunk (dfa whole : Dfa) : Prop where
  built : dfa.Built → whole.Built
  numStates_eq : whole.numStates = dfa.numStates + 1
  start_eq : whole.start = dfa.start
  alphabet_eq : whole.alphabet = dfa.alphabet
  mapping_eq : whole.mapping = dfa.mapping
  isAccepting_eq : ∀ s, whole.isAccepting s = dfa.isAccepting s
  transition_iff : ∀ s c t, whole.transition s c = some t ↔
    dfa.transition s c = some t ∨
      (s ≤ dfa.numStates ∧ c ∈ dfa.alphabet ∧ dfa.transition s c = none ∧ t = dfa.numStates)

/-- The edges of a new state to itself, and those that lead to it from the missing ones. -/
def sinkEdges (dfa : Dfa) : List (Nat × Char × Nat) :=
  dfa.alphabet.toList.map (fun c => (dfa.numStates, c, dfa.numStates)) ++
    dfa.missing.map fun (s, c) => (s, c, dfa.numStates)

theorem mem_sinkEdges {s t : Nat} {c : Char} :
    (s, c, t) ∈ dfa.sinkEdges ↔
      s ≤ dfa.numStates ∧ c ∈ dfa.alphabet ∧ dfa.transition s c = none ∧ t = dfa.numStates := by
  simp only [sinkEdges, List.mem_append, List.mem_map, Prod.exists, Prod.mk.injEq, mem_missing,
    Std.ExtTreeSet.mem_toList]
  constructor
  · rintro (⟨d, hd, rfl, rfl, rfl⟩ | ⟨s', d, ⟨hs, hd, hnone⟩, rfl, rfl, rfl⟩)
    · exact ⟨le_rfl, hd, transition_eq_none_of_le le_rfl _, rfl⟩
    · exact ⟨Nat.le_of_lt hs, hd, hnone, rfl⟩
  · rintro ⟨hs, hc, hnone, rfl⟩
    rcases Nat.lt_or_eq_of_le hs with hs | rfl
    · exact Or.inr ⟨s, c, ⟨hs, hc, hnone⟩, rfl, rfl, rfl⟩
    · exact Or.inl ⟨c, hc, rfl, rfl, rfl⟩

/-- A new state can take the missing edges: none of them is refused, as none of the places has an
edge. -/
theorem exists_sunk (dfa : Dfa) :
    ∃ whole, (dfa.addState false).addTransitions dfa.sinkEdges = .ok whole ∧
      Sunk dfa whole := by
  obtain ⟨whole, hok, ext⟩ := addTransitions_ok (dfa.addState false) dfa.sinkEdges
    (fun s c t h => by
      obtain ⟨hs, hc, -, rfl⟩ := mem_sinkEdges.1 h
      rw [numStates_addState]
      exact ⟨by omega, by omega, hc⟩)
    (fun s c t t' h h' => by
      obtain ⟨-, -, hnone, rfl⟩ := mem_sinkEdges.1 h
      rcases h' with h' | h'
      · rw [transition_addState, hnone] at h'
        cases h'
      · exact (mem_sinkEdges.1 h').2.2.2)
  refine ⟨whole, hok, fun hb => ext.built (hb.addState false),
    ext.numStates_eq.trans (numStates_addState ..), ext.start_eq, ext.alphabet_eq,
    ext.mapping_eq, fun s => ?_, fun s c t => ?_⟩
  · rw [ext.isAccepting_eq, isAccepting_addState]
    by_cases h : s = dfa.numStates
    · rw [if_pos h, h, isAccepting_eq_false_of_le le_rfl]
    · rw [if_neg h]
  · rw [ext.transition_iff, transition_addState, mem_sinkEdges]

/-- **Completion succeeds.**  Either no edge is missing and nothing changes, or the missing edges
are sent to a new state.  No hypothesis is needed, not even that the automaton is well formed. -/
theorem complete_ok (dfa : Dfa) :
    (dfa.Total ∧ dfa.complete = .ok (dfa, none)) ∨
      (¬ dfa.Total ∧ ∃ whole, dfa.complete = .ok (whole, some dfa.numStates) ∧
        Sunk dfa whole) := by
  by_cases total : dfa.Total
  · refine Or.inl ⟨total, ?_⟩
    unfold complete
    rw [missing_eq_nil_iff.2 total]
  · obtain ⟨whole, hok, sunk⟩ := dfa.exists_sunk
    refine Or.inr ⟨total, whole, ?_, sunk⟩
    unfold complete
    unfold sinkEdges at hok
    cases hgaps : dfa.missing with
    | nil => exact absurd (missing_eq_nil_iff.1 hgaps) total
    | cons gap gaps =>
        rw [hgaps] at hok
        show (dfa.addState false).addTransitions _ >>= _ = _
        rw [hok]
        rfl

/-- No edge is missing once the missing edges are sent to a new state. -/
theorem Sunk.total (h : Sunk dfa whole) : whole.Total := by
  intro s hs c hc
  rw [h.numStates_eq] at hs
  rw [h.alphabet_eq] at hc
  cases htr : dfa.transition s c with
  | some t => exact ⟨t, (h.transition_iff s c t).2 (Or.inl htr)⟩
  | none =>
      exact ⟨dfa.numStates, (h.transition_iff s c _).2 (Or.inr ⟨by omega, hc, htr, rfl⟩)⟩

/-- **The missing edges may be sent to a new state**: the same words are accepted from every
state, the new one included, which accepted nothing before it existed. -/
theorem Sunk.acceptsFrom_eq (h : Sunk dfa whole) (s : Nat) (w : List Char) :
    whole.acceptsFrom s w = dfa.acceptsFrom s w := by
  induction w generalizing s with
  | nil => exact h.isAccepting_eq s
  | cons c w ih =>
      rw [acceptsFrom_cons, acceptsFrom_cons]
      cases htr : dfa.transition s c with
      | some t =>
          rw [(h.transition_iff s c t).2 (Or.inl htr)]
          exact ih t
      | none =>
          cases hwhole : whole.transition s c with
          | none => rfl
          | some t =>
              -- the new state is no state of `dfa`, so nothing was accepted from it
              have dead : dfa.acceptsFrom dfa.numStates w = false := by
                cases w with
                | nil => exact isAccepting_eq_false_of_le le_rfl
                | cons d w => rw [acceptsFrom_cons, transition_eq_none_of_le le_rfl]
              rw [h.transition_iff, htr] at hwhole
              rcases hwhole with hwhole | ⟨-, -, -, rfl⟩
              · cases hwhole
              · exact (ih dfa.numStates).trans dead

theorem Sunk.run_of_run (h : Sunk dfa whole) {w : List Char} {s : Nat}
    (hw : dfa.run w = some s) : whole.run w = some s := by
  have runs : ∀ r, dfa.runFrom r w = some s → whole.runFrom r w = some s := by
    clear hw
    induction w with
    | nil => exact fun r hr => hr
    | cons c w ih =>
        intro r hr
        rw [runFrom_cons, Option.bind_eq_some_iff] at hr ⊢
        obtain ⟨t, ht, hr⟩ := hr
        exact ⟨t, (h.transition_iff r c t).2 (Or.inl ht), ih t hr⟩
  rw [run, h.start_eq]
  exact runs dfa.start hw

theorem Sunk.accepts_eq (h : Sunk dfa whole) (w : List Char) :
    whole.accepts w = dfa.accepts w := by
  rw [accepts, accepts, h.start_eq]
  exact h.acceptsFrom_eq dfa.start w

end PatternAutomata.Dfa
