import PatternAutomata.Proofs.Nfa.Obtainable

/-!
# Minimal automata, minimized again

Minimization gives a nondeterministic automaton that has no choice: it is the canonical
deterministic automaton of the language, with its edges.  Minimized again, it stays as it is
(`Nfa.minimize_minimal`).

## Neither limit can stop the second minimization

Without choice the sets of active states have one member each (`Dfa.reachable_toNfa`), so there
are no more of them than states, and every edge leads somewhere, so no dead state is added.  The
states that the first powerset needed are at least as many, and the capacity is asked for the same
number of states as before.  Hence the second minimization succeeds under the limits of the first,
and this is part of the statement.

## The numbering comes out the same

Both results are canonical, complete and for the same words, so they have the same states and
edges (`Dfa.minimize_toNfa`).  As nondeterministic automata they are equal, as these do not keep
the order in which edges were filed.

## The smallest automaton

That no complete deterministic automaton is smaller is said of automata over the symbols of the
alphabet as a type, with any finite type of states.  So the rivals are not restricted to automata
that can be made here.
-/

namespace PatternAutomata

/-! ### Automata without choice -/

namespace Dfa

variable {d e : Dfa} {s t : Nat} {c : Char} {limit : Nat}

/-- The same automaton has the same edges as a nondeterministic one; what its states stand for is
left behind. -/
theorem Same.toNfa_eq (h : d.Same e) : d.toNfa = e.toNfa := by
  have rows_eq : d.states.map State.toRow = e.states.map State.toRow := by
    refine Array.ext (by simpa [numStates] using h.numStates_eq) fun i hi hi' => ?_
    rw [Array.size_map] at hi hi'
    rw [Array.getElem_map, Array.getElem_map, State.toRow, State.toRow,
      moves_eq_of_transition_eq hi hi' (h.transition_eq i)]
  rw [toNfa, toNfa, rows_eq, h.start_eq, h.acceptStates_eq, h.alphabet_eq]

/-- Under a symbol with an edge there is one target. -/
theorem targets?_toNfa (h : d.transition s c = some t) :
    d.toNfa.targets? s (.symbol c) = some (.singleton t) := by
  have hmem : t ∈ d.toNfa.on s c := mem_on_toNfa.2 h
  unfold Nfa.on at hmem
  cases htargets : d.toNfa.targets? s (.symbol c) with
  | none =>
      rw [htargets] at hmem
      exact absurd hmem Std.ExtTreeSet.not_mem_empty
  | some targets =>
      congr 1
      ext u
      have hu : u ∈ d.toNfa.on s c ↔ d.transition s c = some u := mem_on_toNfa
      rw [Nfa.on, htargets, h, Option.some.injEq] at hu
      rw [StateSet.mem_singleton, eq_comm]
      exact hu

/-- No edge is under epsilon, since those of a deterministic automaton are all under symbols. -/
theorem ne_epsilon_of_mem_edges {edge : Nat × Label × Nat} (h : edge ∈ d.toNfa.edges) :
    edge.2.1 ≠ .epsilon := by
  have silent_eq : ∀ entry ∈ d.toNfa.numbered, entry.2.silent = ∅ := by
    rintro ⟨s, row⟩ hrow
    obtain ⟨entry, hentry, heq⟩ := List.mem_map.1 hrow
    cases heq
    have hmem := List.mem_of_getElem? (List.mem_zipIdx_iff_getElem?.1 hentry)
    simp only [toNfa, Array.toList_map, List.mem_map] at hmem
    obtain ⟨state, -, hstate⟩ := hmem
    rw [← hstate]
    rfl
  simp only [Nfa.edges, Nfa.edgeRows, List.mem_flatMap, List.mem_append, List.mem_map,
    List.mem_filterMap] at h
  obtain ⟨row, ⟨entry, -, move, -, rfl⟩ | ⟨entry, hentry, hsome⟩, target, -, rfl⟩ := h
  · exact Label.noConfusion
  · rw [silent_eq entry hentry] at hsome
    cases hsome

/-- What follows one active state is one state, if there is an edge, and otherwise nothing. -/
theorem mem_powerset_edges_toNfa (wf : d.WellFormed) {next : StateSet} :
    (c, next) ∈ d.toNfa.powerset.edges (.singleton s) ↔
      ∃ t, d.transition s c = some t ∧ next = .singleton t := by
  have hadvance : ∀ u, u ∈ d.toNfa.advance (.singleton s) c ↔ d.transition s c = some u := by
    intro u
    rw [Nfa.mem_advance]
    simp only [StateSet.mem_singleton, mem_on_toNfa, path_toNfa_iff, runFrom_nil,
      Option.some.injEq, exists_eq_left, exists_eq_right]
  rw [Nfa.mem_powerset_edges]
  constructor
  · rintro ⟨-, rfl, hempty⟩
    obtain ⟨t, ht⟩ := StateSet.isEmpty_eq_false_iff.1 hempty
    rw [hadvance] at ht
    refine ⟨t, ht, ?_⟩
    ext u
    rw [hadvance, ht, StateSet.mem_singleton, Option.some.injEq, eq_comm]
  · rintro ⟨t, ht, rfl⟩
    refine ⟨wf.mem_alphabet ht, ?_,
      StateSet.isEmpty_eq_false_iff.2 ⟨t, StateSet.mem_singleton.2 rfl⟩⟩
    ext u
    rw [hadvance, ht, StateSet.mem_singleton, Option.some.injEq, eq_comm]

/-- **Without choice one state is active at a time.**  So the points of the powerset can be
counted by the states. -/
theorem reachable_toNfa (wf : d.WellFormed) (pos : 0 < d.numStates) {active : StateSet}
    (h : d.toNfa.powerset.Reachable active) :
    ∃ s, s < d.numStates ∧ active = .singleton s := by
  induction h with
  | refl =>
      refine ⟨d.start, wf.start_lt pos, ?_⟩
      ext u
      show u ∈ d.toNfa.active [] ↔ _
      rw [Nfa.mem_active, path_toNfa_iff, StateSet.mem_singleton, runFrom_nil, Option.some.injEq,
        eq_comm]
      rfl
  | tail _ edge ih =>
      obtain ⟨s, -, rfl⟩ := ih
      obtain ⟨c, he⟩ := edge
      obtain ⟨t, ht, rfl⟩ := (mem_powerset_edges_toNfa wf).1 he
      exact ⟨t, wf.target_lt ht, rfl⟩

/-- An automaton without choice whose edges all exist is made deterministic within as many states
as it has. -/
theorem exists_determinize_toNfa (wf : d.WellFormed) (pos : 0 < d.numStates) (total : d.Total)
    (hle : d.numStates ≤ limit) : ∃ whole, d.toNfa.determinize limit = .ok whole := by
  rcases d.toNfa.determinize_cases limit with ⟨whole, _, _, hok, -⟩ | ⟨-, crowded | ⟨-, stuck⟩⟩
  · exact ⟨whole, hok⟩
  · obtain ⟨points, nodup, hmany, hpoints⟩ := crowded
    have sub : points ⊆ (List.range d.numStates).map StateSet.singleton := by
      intro p hp
      obtain ⟨s, hs, rfl⟩ := reachable_toNfa wf pos (hpoints p hp)
      exact List.mem_map.2 ⟨s, List.mem_range.2 hs, rfl⟩
    have hlength := (nodup.subperm sub).length_le
    rw [List.length_map, List.length_range] at hlength
    exact absurd hmany (Nat.not_lt.2 (hlength.trans hle))
  · obtain ⟨p, hp, c, hc, hnone⟩ := stuck
    obtain ⟨s, hs, rfl⟩ := reachable_toNfa wf pos hp
    obtain ⟨t, ht⟩ := total s hs c hc
    exact absurd ((mem_powerset_edges_toNfa wf).2 ⟨t, ht, rfl⟩) (hnone _)

/-- **A canonical automaton is minimized to itself**, within any ceiling and capacity that it fits
in. -/
theorem minimize_toNfa (hd : d.Canonical) (total : d.Total) (hle : d.numStates ≤ limit)
    {strategy : Strategy} (fits : strategy.check d.numStates = .ok ()) :
    d.toNfa.minimize strategy limit = .ok d.toNfa := by
  have wf := hd.built.wellFormed
  obtain ⟨whole, hwhole⟩ := exists_determinize_toNfa wf hd.pos total hle
  have det := Nfa.determinizes_of_determinize (Nfa.wellFormed_toNfa hd.built hd.pos) hwhole
  obtain ⟨m, hm, canonical, total', alphabet_eq, accepts_eq⟩ :=
    minimize_canonical det.built det.pos det.total det.accessible
  have alphabet_eq : m.alphabet = d.alphabet := alphabet_eq.trans det.alphabet_eq
  have accepts_eq : ∀ w, m.accepts w = d.accepts w := fun w =>
    (accepts_eq w).trans ((det.accepts_eq w).trans (d.accepts_toNfa w))
  have same := canonical.same hd alphabet_eq accepts_eq fun w => by
    rw [Bool.eq_iff_iff, total'.run_isSome_iff canonical.built.wellFormed canonical.pos,
      total.run_isSome_iff wf hd.pos, OverAlphabet, OverAlphabet, alphabet_eq]
  rw [Nfa.minimize, Strategy.determinize_eq, hwhole, Error.ok_bind, hm, Error.ok_bind, Nfa.ofDfa,
    same.numStates_eq, fits, Error.ok_bind, same.toNfa_eq]
  rfl

end Dfa

namespace Nfa

variable {strategy : Strategy} {nfa r : Nfa} {limit : Nat}

/-- **Minimization gives the smallest automaton, once and for all.**  It accepts the same inputs,
knows the same symbols, reads a symbol with every edge, and has one target for each of its states
and symbols.  It has as many states as the smallest complete deterministic automaton over the
alphabet for these inputs: there is one with that number, and none has fewer.  Minimized again
under the same ceiling, it stays as it is.  Nothing is assumed of the ceiling but that the first
minimization was not refused. -/
theorem minimize_minimal (obtained : Obtainable strategy nfa)
    (h : nfa.minimize strategy limit = .ok r) :
    (∀ w, strategy.accepts r w = strategy.accepts nfa w) ∧ r.alphabet = nfa.alphabet ∧
    (∀ edge ∈ r.edges, edge.2.1 ≠ .epsilon) ∧
    (∀ s, s < r.numStates → ∀ c ∈ r.alphabet,
      ∃ t, t < r.numStates ∧ r.targets? s (.symbol c) = some (.singleton t)) ∧
    ((∃ (σ : Type) (_ : Fintype σ) (smallest : DFA {c // c ∈ r.alphabet} σ),
        (∀ w, w ∈ smallest.accepts ↔ strategy.accepts nfa (w.map Subtype.val) = true) ∧
        Fintype.card σ = r.numStates) ∧
      ∀ (σ : Type) [Fintype σ] (rival : DFA {c // c ∈ r.alphabet} σ),
        (∀ w, w ∈ rival.accepts ↔ strategy.accepts nfa (w.map Subtype.val) = true) →
        r.numStates ≤ Fintype.card σ) ∧
    r.minimize strategy limit = .ok r := by
  obtain ⟨m, rfl, canonical, total, alphabet_eq, accepts_eq, hle, fits⟩ :=
    exists_minimal obtained.wellFormed h
  have wf := canonical.built.wellFormed
  simp only [Strategy.accepts_eq, ← accepts_eq, m.accepts_toNfa, m.numStates_toNfa]
  refine ⟨fun _ => trivial, alphabet_eq, fun _ => Dfa.ne_epsilon_of_mem_edges, ?_,
    ⟨⟨Fin m.numStates, inferInstance, m.toDFA wf canonical.pos total,
        Dfa.mem_accepts_toDFA wf canonical.pos total, Fintype.card_fin _⟩,
      fun σ _ rival => canonical.numStates_le_card rival⟩,
    Dfa.minimize_toNfa canonical total hle fits⟩
  intro s hs c hc
  obtain ⟨t, ht⟩ := total s hs c hc
  exact ⟨t, wf.target_lt ht, Dfa.targets?_toNfa ht⟩

/-- Two letters in a row or none, with dense sets, under a ceiling of four states. -/
theorem minimize_minimal_of_pair :
    ∃ nfa r, Obtainable .bit nfa ∧ nfa.minimize .bit 4 = .ok r ∧
      (∀ w, Strategy.bit.accepts r w = Strategy.bit.accepts nfa w) ∧
      (∀ edge ∈ r.edges, edge.2.1 ≠ .epsilon) ∧ r.minimize .bit 4 = .ok r := by
  have hsome : (do
      let pair ← Strategy.bit.concat (.oneOf ['a']) (.oneOf ['b'])
      let nfa ← Strategy.bit.optional pair
      nfa.minimize .bit 4).toOption.isSome = true := by cbv
  obtain ⟨r, hr⟩ := Error.exists_ok_of_isSome hsome
  obtain ⟨pair, hpair, hr⟩ := Error.bind_eq_ok_iff.1 hr
  obtain ⟨nfa, hnfa, hr⟩ := Error.bind_eq_ok_iff.1 hr
  have obtained : Obtainable .bit nfa :=
    .optional (.concat (.oneOf .bit ['a']) (.oneOf .bit ['b']) hpair) hnfa
  obtain ⟨accepts_eq, -, silent, -, -, again⟩ := minimize_minimal obtained hr
  exact ⟨nfa, r, obtained, hr, accepts_eq, silent, again⟩

end Nfa

end PatternAutomata
