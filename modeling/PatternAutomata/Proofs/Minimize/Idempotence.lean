import PatternAutomata.Proofs.Minimize.Gaps
import PatternAutomata.Proofs.Minimize.Mapping

/-!
# Minimization is idempotent

A minimal automaton that is minimized again comes out as it is: not only with the same states and
edges, but with every edge on file in the same order, and standing for the same.
`Dfa.minimize_idempotent` is an equation between whole records.

## From the same edges to the same record

That the second automaton has the same states and edges follows from uniqueness: both are
canonical, and both accept the same words.  But a record has more to it, such as the order in
which edges to a state are on file.  What is filed with a state follows from the rows that an
automaton was made of, and these follow from its edges; so two minimal automata with the same
edges are equal in everything but perhaps what their states stand for
(`Quotient.Minimizes.bare_eq`).

## Gaps have to stay

Uniqueness asks that edges are missing from both automata or from neither.  A minimal automaton
has no missing edge or no dead state, and minimization keeps either; this is the hypothesis `gaps`
below.

## What the states stand for

A state of a minimal automaton that is minimized replaces itself and no other state, so taking
together what the replaced states stand for changes nothing.  It would if a state could stand for
a list that is not ascending, but the first run has put the lists in order.
-/

namespace PatternAutomata

/-- **The same minimal automaton is filed in the same way.**  The automata that were minimized may
differ in everything but their alphabets; what remains of them in the result is no more than
`same` says. -/
theorem Quotient.Minimizes.bare_eq {q q' : Quotient} {survey survey' : Survey Nat}
    {bare bare' d d' m m' : Dfa} (h : q.Minimizes survey bare d m)
    (h' : q'.Minimizes survey' bare' d' m') (alphabet : d.alphabet = d'.alphabet)
    (same : bare.Same bare') : bare = bare' := by
  have rows : (survey.found.toList.map fun b => q.words b []).zip survey.rows.toList =
      (survey'.found.toList.map fun b => q'.words b []).zip survey'.rows.toList := by
    refine List.ext_getElem? fun s => Option.ext fun row => ?_
    rw [h.chart.getElem?_rows_iff h.done h.fits.ascending,
      h'.chart.getElem?_rows_iff h'.done h'.fits.ascending, same.numStates_eq, same.isAccepting_eq]
    simp only [same.transition_eq]
  have made := h.rows_ok
  rw [rows, h.fits.ofList_symbols, alphabet, ← h'.fits.ofList_symbols, h'.rows_ok] at made
  exact (Except.ok.inj made).symm

namespace Dfa

variable {d m e : Dfa}

/-- A minimal automaton and the minimal automaton of it are the same in states and edges.  Without
`gaps` a dead state could have been made of the missing edges in between. -/
theorem Minimized.same (h : m.Minimized e) (canonical : m.Canonical)
    (gaps : m.Total ∨ m.LiveWhereReached) : e.Same m := by
  have wf := canonical.built.wellFormed
  refine h.canonical.same canonical h.alphabet_eq h.accepts_eq ?_
  rcases gaps with total | live
  · exact (h.total fun _ s hw => total s (wf.run_lt canonical.pos hw)).run_isSome_eq total
      h.canonical canonical h.alphabet_eq
  · exact (h.live live).run_isSome_eq live h.accepts_eq

/-- **Minimized again, an automaton stays as it is**, in everything that there is to it: the order
in which edges are on file and what the states stand for included.  There is no hypothesis on the
number of states.  An automaton without states, or with one, or without symbols is not touched by
the first run, and not by the second either. -/
theorem minimize_idempotent (hb : d.Built) :
    ∃ m, d.minimize = .ok m ∧ m.minimize = .ok m := by
  by_cases small : d.numStates ≤ 1 ∨ d.alphabet = ∅
  · exact ⟨d, minimize_of_small small, minimize_of_small small⟩
  obtain ⟨large, symbols⟩ := not_or.1 small
  obtain ⟨q, survey, bare, m, hm, h⟩ := exists_minimizes (Nat.lt_of_not_le large) symbols
  refine ⟨m, hm, ?_⟩
  have minimized := h.minimized hb.wellFormed
  have wf := minimized.built.wellFormed
  by_cases small : m.numStates ≤ 1
  · exact minimize_of_small (.inl small)
  obtain ⟨q', survey', bare', m', hm', h'⟩ :=
    exists_minimizes (Nat.lt_of_not_le small) (minimized.alphabet_eq ▸ symbols)
  have same : m'.Same m := (h'.minimized wf).same minimized.canonical
    (total_or_live_of_minimize hb (Nat.lt_of_not_le large) symbols hm)
  have bare_eq : bare' = bare := h'.bare_eq h minimized.alphabet_eq
    (h'.same.symm.trans (same.trans h.same))
  -- states of a minimal automaton stay apart, so the second merging leaves the mapping as it is
  have mapping_eq : m.mapping.map (fun mapping => q'.mergedMapping mapping survey'.found.toList) =
      m.mapping := by
    rw [h.eq]
    cases d.mapping with
    | none => rfl
    | some mapping =>
        exact congrArg some ((h.merges hb.wellFormed mapping).eq_of_same (h'.merges wf _) same
          minimized.canonical)
  rw [hm']
  refine congrArg Except.ok ?_
  calc m' = { bare' with mapping := m.mapping } := h'.eq.trans (by rw [mapping_eq])
    _ = { bare with mapping := m.mapping } := by rw [bare_eq]
    _ = m := by rw [h.eq]

/-- Two of three states accept the same words, an edge is missing everywhere, and what the states
stand for is unsorted and not known of all of them; so the first run changes all of this and the
second nothing. -/
theorem minimize_idempotent_of_mapping :
    let bare := (((((withAlphabet (.ofList ['a', 'b'])).addState true).addState false).addState
      true).file 0 'a' 1).file 1 'a' 2 |>.file 2 'a' 1
    let d := bare.setMapping (.ofList [(0, [5, 3]), (2, [3, 1])])
    d.Built ∧ ∃ m, d.minimize = .ok m ∧ m.minimize = .ok m := by
  intro bare d
  have hbare : bare.Built :=
    ((((((Built.withAlphabet _).addState true).addState false).addState true).file (by decide)
      (by decide) rfl).file (by decide) (by decide) rfl).file (by decide) (by decide) rfl
  have hb : d.Built := hbare.setMapping _
  exact ⟨hb, minimize_idempotent hb⟩

end Dfa

end PatternAutomata
