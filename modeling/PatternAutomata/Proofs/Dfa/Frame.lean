import PatternAutomata.Proofs.Dfa.Editing

/-!
# What completion leaves as it was

Completion adds the edges that are missing, and one state for them to lead to.  Nothing else about
the automaton changes, and the same words are accepted.  `Dfa.Built.complete_frame` is the whole
statement.

## What there was is kept

`Dfa.Kept` says of two automata that all that the first had the second has as well, states, edges
at both ends, start, symbols, and what the states stand for.  `Dfa.Kept.of_complete` is the frame
of completion: whatever is known of an automaton in these terms need not be proved again after it.
The files at the targets are the part that takes an argument.  All edges that are added lead into
one state, which is new, so at any other state none is filed
(`Dfa.predecessors_of_addTransitions`).

## What is new

A missing edge is a state and a symbol of the alphabet without an edge, so a state without any
edges and a symbol that no edge carries are gaps like any other.  The gaps are listed before the
new state is there; its own edges are added on their own, and no edge that is added contradicts
one that was there.  `Dfa.Sunk.transition_new_iff` says which edges lead to the new state, so that
nothing is known only by the name of the function.
-/

namespace PatternAutomata.Dfa

variable {dfa later whole : Dfa} {s t : Nat} {c : Char}

/-! ### Edges into one state -/

/-- **Edges into one state do not show at any other.**  The edges need not be granted for a
reason; it is enough that they were. -/
theorem predecessors_of_addTransitions {target : Nat} {edges : List (Nat × Char × Nat)}
    (into : ∀ e ∈ edges, e.2.2 = target) (h : dfa.addTransitions edges = .ok later)
    (ht : t ≠ target) (c : Char) : later.predecessors t c = dfa.predecessors t c := by
  induction edges generalizing dfa with
  | nil =>
      cases h
      rfl
  | cons e edges ih =>
      obtain ⟨source, b, end'⟩ := e
      obtain rfl : end' = target := into _ List.mem_cons_self
      obtain ⟨first, hfirst, hrest⟩ := Error.bind_eq_ok_iff.1 h
      rw [ih (fun e he => into e (List.mem_cons_of_mem _ he)) hrest]
      obtain ⟨-, hend, ⟨-, rfl⟩ | ⟨-, rfl⟩⟩ := addTransition_cases hfirst
      · rfl
      · rw [predecessors_file hend, if_neg fun h => ht h.1]

/-- All that an automaton had, another one has as well: its states, with the edges that leave them
and those that enter them, the start state, the symbols, and what the states stand for.  There may
be more states and more edges. -/
structure Kept (dfa later : Dfa) : Prop where
  numStates_le : dfa.numStates ≤ later.numStates
  start_eq : later.start = dfa.start
  alphabet_eq : later.alphabet = dfa.alphabet
  mapping_eq : later.mapping = dfa.mapping
  isAccepting_eq : ∀ s, s < dfa.numStates → later.isAccepting s = dfa.isAccepting s
  transition_eq : ∀ s c t, dfa.transition s c = some t → later.transition s c = some t
  predecessors_eq : ∀ t, t < dfa.numStates → ∀ c, later.predecessors t c = dfa.predecessors t c

theorem Kept.refl (dfa : Dfa) : dfa.Kept dfa :=
  ⟨Nat.le_refl _, rfl, rfl, rfl, fun _ _ => rfl, fun _ _ _ h => h, fun _ _ _ => rfl⟩

/-- Completion files no edge with a state that was there before. -/
theorem predecessors_of_complete {dead : Option Nat} (h : dfa.complete = .ok (later, dead))
    (ht : t < dfa.numStates) (c : Char) : later.predecessors t c = dfa.predecessors t c := by
  unfold complete at h
  cases hgaps : dfa.missing with
  | nil =>
      rw [hgaps] at h
      cases h
      rfl
  | cons gap gaps =>
      rw [hgaps] at h
      obtain ⟨filled, hfilled, h⟩ := Error.bind_eq_ok_iff.1 h
      cases h
      have added : (dfa.addState false).addTransitions dfa.sinkEdges = .ok later := by
        rw [sinkEdges, hgaps]
        exact hfilled
      have into : ∀ e ∈ dfa.sinkEdges, e.2.2 = dfa.numStates := by
        intro e he
        exact (mem_sinkEdges.1 he).2.2.2
      rw [predecessors_of_addTransitions into added (Nat.ne_of_lt ht), predecessors_addState]

/-- **Completion keeps all that there was.** -/
theorem Kept.of_complete {dead : Option Nat} (h : dfa.complete = .ok (later, dead)) :
    dfa.Kept later := by
  rcases dfa.complete_ok with ⟨-, hsame⟩ | ⟨-, whole, hwhole, sunk⟩
  · rw [h] at hsame
    cases hsame
    exact .refl dfa
  · rw [h] at hwhole
    cases hwhole
    refine ⟨?_, sunk.start_eq, sunk.alphabet_eq, sunk.mapping_eq, fun s _ => sunk.isAccepting_eq s,
      fun s c t ht => (sunk.transition_iff s c t).2 (.inl ht),
      fun t ht c => predecessors_of_complete h ht c⟩
    rw [sunk.numStates_eq]
    exact Nat.le_succ _

/-! ### The new state -/

/-- **Which edges lead to the new state**: its own, and those that were missing.  That the
automaton was well formed rules out an old edge to a number that named no state. -/
theorem Sunk.transition_new_iff (sunk : Sunk dfa whole) (wf : dfa.WellFormed) :
    whole.transition s c = some dfa.numStates ↔
      c ∈ dfa.alphabet ∧ (s = dfa.numStates ∨ s < dfa.numStates ∧ dfa.transition s c = none) := by
  rw [sunk.transition_iff]
  constructor
  · rintro (old | ⟨hs, hc, none, -⟩)
    · exact absurd (wf.target_lt old) (Nat.lt_irrefl _)
    · rcases Nat.lt_or_eq_of_le hs with hs | hs
      · exact ⟨hc, .inr ⟨hs, none⟩⟩
      · exact ⟨hc, .inl hs⟩
  · rintro ⟨hc, rfl | ⟨hs, none⟩⟩
    · exact .inr ⟨Nat.le_refl _, hc, transition_eq_none_of_le (Nat.le_refl _) c, rfl⟩
    · exact .inr ⟨Nat.le_of_lt hs, hc, none, rfl⟩

/-- From the new state no word is accepted. -/
theorem Sunk.mem_dead_new (sunk : Sunk dfa whole) (built : dfa.Built) :
    dfa.numStates ∈ whole.dead := by
  rw [← List.contains_iff_mem, ← isDead, (sunk.built built).isDead_iff, sunk.numStates_eq]
  refine ⟨Nat.lt_succ_self _, fun w => ?_⟩
  rw [sunk.acceptsFrom_eq]
  cases w with
  | nil => exact isAccepting_eq_false_of_le (Nat.le_refl _)
  | cons c w => rw [acceptsFrom_cons, transition_eq_none_of_le (Nat.le_refl _)]

/-- Where no edge is missing completion changes nothing. -/
theorem Total.runOn_complete (total : dfa.Total) :
    Edit.complete.runOn dfa = (.ok none, dfa) := by
  obtain ⟨later, dead, hok, hrun⟩ := Dfa.runOn_complete dfa
  rcases dfa.complete_ok with ⟨-, hsame⟩ | ⟨partly, -⟩
  · rw [hok] at hsame
    cases hsame
    exact hrun
  · exact absurd total partly

/-- **What completion does, and what it leaves as it was.**  It succeeds.  No edge is missing
afterwards, the same words are accepted, and all that there was is still there.  It names no new
state iff no edge was missing, and then nothing changed.  Otherwise it names the one state that
came, which is dead; the edges that lead there are those that were missing and its own.  Asked for
once more, completion changes nothing. -/
theorem Built.complete_frame (built : dfa.Built) :
    ∃ later dead, Edit.complete.runOn dfa = (.ok dead, later) ∧
      later.isComplete = true ∧ (∀ w, later.accepts w = dfa.accepts w) ∧ dfa.Kept later ∧
      (dead = none ↔ dfa.isComplete = true) ∧ (dead = none → later = dfa) ∧
      (∀ new, dead = some new →
        new = dfa.numStates ∧ later.numStates = dfa.numStates + 1 ∧ new ∈ later.dead ∧
        ∀ s c, later.transition s c = some new ↔
          c ∈ dfa.alphabet ∧ (s = new ∨ s < dfa.numStates ∧ dfa.transition s c = none)) ∧
      Edit.complete.runOn later = (.ok none, later) := by
  obtain ⟨later, dead, hok, hrun⟩ := runOn_complete dfa
  refine ⟨later, dead, hrun, ?_⟩
  have kept := Kept.of_complete hok
  rcases dfa.complete_ok with ⟨total, hsame⟩ | ⟨partly, whole, hwhole, sunk⟩
  · rw [hok] at hsame
    cases hsame
    have complete := (isComplete_iff built.wellFormed).2 total
    exact ⟨complete, fun _ => rfl, kept, iff_of_true rfl complete, fun _ => rfl, nofun,
      total.runOn_complete⟩
  · rw [hok] at hwhole
    cases hwhole
    refine ⟨(isComplete_iff (sunk.built built).wellFormed).2 sunk.total, sunk.accepts_eq, kept,
      iff_of_false nofun (mt (isComplete_iff built.wellFormed).1 partly), nofun, ?_,
      sunk.total.runOn_complete⟩
    rintro new ⟨⟩
    exact ⟨rfl, sunk.numStates_eq, sunk.mem_dead_new built,
      fun s c => sunk.transition_new_iff built.wellFormed⟩

/-- A state without edges, a state with one, and a symbol that no edge carries: all three kinds of
gaps. -/
def gappy : List Request :=
  [.addState false, .addState true, .addTransition 0 'a' 1]

theorem complete_frame_of_gappy :
    let dfa := (withAlphabet (.ofList ['b'])).after gappy
    dfa.Built ∧ dfa.isComplete = false ∧
      ∃ later, Edit.complete.runOn dfa = (.ok (some 2), later) ∧ later.isComplete = true ∧
        (∀ w, later.accepts w = dfa.accepts w) ∧ dfa.Kept later ∧ 2 ∈ later.dead ∧
        Edit.complete.runOn later = (.ok none, later) := by
  intro dfa
  have built : dfa.Built := (Built.withAlphabet _).after (by decide)
  have partly : dfa.isComplete = false := by decide
  obtain ⟨later, dead, hrun, complete, accepts, kept, none_iff, -, new, again⟩ :=
    built.complete_frame
  cases dead with
  | none => exact absurd (none_iff.1 rfl) (by rw [partly]; exact Bool.false_ne_true)
  | some new' =>
      obtain ⟨rfl, -, hdead, -⟩ := new new' rfl
      exact ⟨built, partly, later, hrun, complete, accepts, kept, hdead, again⟩

end PatternAutomata.Dfa
