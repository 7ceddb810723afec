import PatternAutomata.Proofs.Minimize.Uniqueness

/-!
# Missing edges of minimal automata

An automaton with missing edges may have a minimal automaton with missing edges or a complete one.
Which of the two it is depends on whether it has a dead state of its own among those that are
reached, and `Dfa.minimize_gaps` says exactly how.

## Where a missing edge goes

In the table a missing edge leads to the sink, and the sink is left out unless some state that is
reached is in its block.  Such a state is dead, and there is one as soon as any state that is
reached is dead.  Then the edges into the block are kept, and those that were missing are among
them: the dead state absorbs them all, and the minimal automaton is complete.

## Without a dead state

If no state that is reached is dead, the words that have a run are the beginnings of accepted
words.  This is so in the minimal automaton as well, which accepts the same words and has no dead
state either (`Dfa.total_or_live_of_minimize`).  So the same words have a run in both, and an edge
is missing in the one where it is missing in the other.
-/

namespace PatternAutomata.Dfa

variable {d m : Dfa}

/-- If a state that is reached is dead, no edge is missing from the minimal automaton.  That it is
reached matters, since other states are not in the table. -/
theorem total_of_dead (hb : d.Built) (several : 2 ≤ d.numStates) (symbols : d.alphabet ≠ ∅)
    (h : d.minimize = .ok m) (dead : ∃ s ∈ d.reachable, d.isDead s = true) : m.Total := by
  obtain ⟨s, hs, hdead⟩ := dead
  obtain ⟨w, hw⟩ := (mem_reachable (Nat.lt_of_succ_lt several)).1 hs
  obtain ⟨q, survey, bare, m', hok, minimizes⟩ := exists_minimizes several symbols
  rw [h] at hok
  obtain rfl : m = m' := Except.ok.inj hok
  have total := minimizes.fits.total_of_dropped?_eq_none minimizes.done minimizes.chart
    (minimizes.fits.dropped?_eq_none_of_dead hb.wellFormed hw (hb.isDead_iff.1 hdead).2)
  rw [minimizes.eq]
  exact total

/-- A state that is reached is dead, or from every such state some word is accepted.  The two
cases of the theorem below are these. -/
theorem dead_or_live (hb : d.Built) (hpos : 0 < d.numStates) :
    (∃ s ∈ d.reachable, d.isDead s = true) ∨ d.LiveWhereReached := by
  by_cases dead : ∃ s ∈ d.reachable, d.isDead s = true
  · exact .inl dead
  · refine .inr (hb.liveWhereReached hpos fun s hs => ?_)
    rw [← Bool.not_eq_true]
    exact fun h => dead ⟨s, hs, h⟩

theorem LiveWhereReached.isDead_eq_false (live : d.LiveWhereReached) (hb : d.Built)
    (hpos : 0 < d.numStates) {s : Nat} (hs : s ∈ d.reachable) : d.isDead s = false := by
  obtain ⟨w, hw⟩ := (mem_reachable hpos).1 hs
  obtain ⟨v, hv⟩ := live w s hw
  rw [← Bool.not_eq_true, hb.isDead_iff, not_and]
  intro _ hnothing
  rw [hnothing v] at hv
  cases hv

/-- **A minimal automaton lacks edges or has a dead state that is reached, and not both.**  This
is what is needed to minimize it a second time without a change. -/
theorem total_or_live_of_minimize (hb : d.Built) (several : 2 ≤ d.numStates)
    (symbols : d.alphabet ≠ ∅) (h : d.minimize = .ok m) : m.Total ∨ m.LiveWhereReached := by
  have hpos : 0 < d.numStates := Nat.lt_of_succ_lt several
  obtain ⟨m', hm', -, -, -, -, live⟩ := minimize_of_symbols hb hpos symbols
  rw [h] at hm'
  obtain rfl : m = m' := Except.ok.inj hm'
  exact (dead_or_live hb hpos).imp (total_of_dead hb several symbols h) live

/-! ### Runs and missing edges -/

/-- Where the same words have a run, the same edges are missing.  The states are not the same;
they are compared by the word that leads to them. -/
theorem transition_eq_none_iff (runs : ∀ w, (d.run w).isSome = (m.run w).isSome)
    {w : List Char} {p q : Nat} (hp : d.run w = some p) (hq : m.run w = some q) (c : Char) :
    m.transition q c = none ↔ d.transition p c = none := by
  have hstep := runs (w ++ [c])
  rw [run_concat, run_concat, hp, hq, Option.bind_some, Option.bind_some] at hstep
  rw [← Option.isNone_iff_eq_none, ← Option.isNone_iff_eq_none, ← Option.not_isSome,
    ← Option.not_isSome, hstep]

/-- In a complete automaton every word over the alphabet has a run, and no edge is missing after
it. -/
theorem Total.exists_run_forall (total : m.Total) (canonical : m.Canonical) {w : List Char}
    (hw : m.OverAlphabet w) :
    ∃ q, m.run w = some q ∧ ∀ c ∈ m.alphabet, m.transition q c ≠ none := by
  have wf := canonical.built.wellFormed
  obtain ⟨q, hq⟩ := total.exists_run wf canonical.pos hw
  refine ⟨q, hq, fun c hc => ?_⟩
  exact Option.ne_none_iff_exists'.2 (total q (wf.run_lt canonical.pos hq) c hc)

/-- **Where the edges of a minimal automaton are missing.**  A word that leads somewhere still
does, and after it an edge is missing iff it was missing before and no state that is reached is
dead.  If one is dead, no edge is missing anywhere.  The hypotheses `several` and `symbols`
exclude the automata that are not minimized but stay as they are. -/
theorem minimize_gaps (hb : d.Built) (several : 2 ≤ d.numStates) (symbols : d.alphabet ≠ ∅) :
    ∃ m, d.minimize = .ok m ∧
      (∀ w p, d.run w = some p → ∃ q, m.run w = some q ∧ ∀ c ∈ d.alphabet,
        (m.transition q c = none ↔
          d.transition p c = none ∧ ∀ s ∈ d.reachable, d.isDead s = false)) ∧
      ((∃ s ∈ d.reachable, d.isDead s = true) → m.isComplete = true) := by
  have hpos : 0 < d.numStates := Nat.lt_of_succ_lt several
  obtain ⟨m, hm, canonical, alphabet_eq, accepts_eq, -, live⟩ :=
    minimize_of_symbols hb hpos symbols
  refine ⟨m, hm, fun w p hp => ?_, fun dead =>
    (isComplete_iff canonical.built.wellFormed).2 (total_of_dead hb several symbols hm dead)⟩
  rcases dead_or_live hb hpos with dead | alive
  · -- no edge is missing from the minimal automaton
    have hword : m.OverAlphabet w := fun c hc =>
      alphabet_eq ▸ hb.wellFormed.overAlphabet_of_runFrom hp c hc
    obtain ⟨q, hq, hedges⟩ :=
      (total_of_dead hb several symbols hm dead).exists_run_forall canonical hword
    refine ⟨q, hq, fun c hc => iff_of_false (hedges c (alphabet_eq ▸ hc)) ?_⟩
    rintro ⟨-, hall⟩
    obtain ⟨s, hs, hdead⟩ := dead
    rw [hall s hs] at hdead
    cases hdead
  · -- the same words have a run in both
    have runs := alive.run_isSome_eq (live alive) fun w => (accepts_eq w).symm
    obtain ⟨q, hq⟩ : ∃ q, m.run w = some q := by
      rw [← Option.isSome_iff_exists, ← runs, hp]
      rfl
    refine ⟨q, hq, fun c _ => (transition_eq_none_iff runs hp hq c).trans ?_⟩
    exact (and_iff_left fun s hs => alive.isDead_eq_false hb hpos hs).symm

/-- A dead state takes over what is missing at another state, and without it the same edge is
still missing. -/
theorem minimize_gaps_of_dead :
    let d := ((((withAlphabet (.ofList ['a', 'b'])).addState true).addState false).file 0 'a' 1)
    d.Built ∧ 2 ≤ d.numStates ∧ d.alphabet ≠ ∅ ∧
      ∃ m, d.minimize = .ok m ∧
        (∀ w p, d.run w = some p → ∃ q, m.run w = some q ∧ ∀ c ∈ d.alphabet,
          (m.transition q c = none ↔
            d.transition p c = none ∧ ∀ s ∈ d.reachable, d.isDead s = false)) ∧
        ((∃ s ∈ d.reachable, d.isDead s = true) → m.isComplete = true) := by
  intro d
  have hb : d.Built := (((Built.withAlphabet _).addState true).addState false).file (by decide)
    (by decide) rfl
  have symbols : d.alphabet ≠ ∅ := fun h => absurd (congrArg (·.contains 'a') h) (by decide)
  exact ⟨hb, Nat.le_refl 2, symbols, minimize_gaps hb (Nat.le_refl 2) symbols⟩

end PatternAutomata.Dfa
