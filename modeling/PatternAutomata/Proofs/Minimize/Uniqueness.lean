import Mathlib
import PatternAutomata.Proofs.Minimize.Quotient

/-!
# Minimal automata are unique

What minimization gives depends on the language alone, and not on how the states of the automaton
that it is given are numbered, nor on the states that no word leads to (`Dfa.minimize_unique`).

## What may still differ

Two canonical automata with the same language may still differ in a dead state, which one has and
the other leaves out.  They do not if the same words have a run in both.  This cannot be concluded
from the language: of two automata for the same words one may lack an edge where the other has one
into a dead state, and minimization keeps either.  So something has to be assumed, and there are
two ways to assume it.

## Two ways to be alike

Where no edge is missing, the words with a run are those over the alphabet
(`Dfa.Total.run_isSome_eq`).  Where no state is dead, they are the beginnings of accepted words
(`Dfa.LiveWhereReached.run_isSome_iff`).  Both are determined by the alphabet and the language.
In either case only states that are reached count, as the others are left out by minimization.
-/

namespace PatternAutomata.Dfa

variable {d e : Dfa}

/-- Where one state is all there is, a word leads to it, so that nothing is missing anywhere. -/
theorem FullWhereReached.total_of_numStates_eq_one (full : d.FullWhereReached)
    (wf : d.WellFormed) (h : d.numStates = 1) : d.Total := by
  intro s hs c hc
  have hstart := wf.start_lt (by omega)
  obtain rfl : d.start = s := by omega
  exact full [] d.start (d.run_nil) c hc

/-- **Minimization over an alphabet with symbols.**  An automaton with one state is its own
minimal automaton, and is treated here like any other.  This is where the automata that
minimization does not touch are dealt with, once and for all. -/
theorem minimize_of_symbols (hb : d.Built) (hpos : 0 < d.numStates) (symbols : d.alphabet ≠ ∅) :
    ∃ m, d.minimize = .ok m ∧ m.Canonical ∧ m.alphabet = d.alphabet ∧
      (∀ w, m.accepts w = d.accepts w) ∧ (d.FullWhereReached → m.Total) ∧
      (d.LiveWhereReached → m.LiveWhereReached) := by
  rcases minimize_spec hb hpos with ⟨hsmall, hok⟩ | ⟨m, hok, h⟩
  · have hone := hsmall.resolve_right symbols
    exact ⟨d, hok, canonical_of_numStates_eq_one hb hone, rfl, fun _ => rfl,
      fun full => full.total_of_numStates_eq_one hb.wellFormed hone, id⟩
  · exact ⟨m, hok, h.canonical, h.alphabet_eq, h.accepts_eq, h.total, h.live⟩

/-- Where no state is dead, exactly the beginnings of accepted words have a run. -/
theorem LiveWhereReached.run_isSome_iff (live : d.LiveWhereReached) (w : List Char) :
    (d.run w).isSome = true ↔ ∃ v, d.accepts (w ++ v) = true := by
  constructor
  · intro h
    obtain ⟨s, hs⟩ := Option.isSome_iff_exists.1 h
    obtain ⟨v, hv⟩ := live w s hs
    exact ⟨v, (accepts_append hs v).trans hv⟩
  · rintro ⟨v, hv⟩
    cases hw : d.run w with
    | some s => rfl
    | none =>
        rw [accepts_append_of_run_eq_none hw] at hv
        cases hv

/-- The same words have a run in two automata with the same language if no state of either is
dead. -/
theorem LiveWhereReached.run_isSome_eq (hd : d.LiveWhereReached) (he : e.LiveWhereReached)
    (lang : ∀ w, d.accepts w = e.accepts w) (w : List Char) :
    (d.run w).isSome = (e.run w).isSome := by
  rw [Bool.eq_iff_iff, hd.run_isSome_iff, he.run_isSome_iff]
  simp only [lang]

/-- The same words have a run in two automata with the same alphabet if no edge is missing in
either.  The language is not needed for this. -/
theorem Total.run_isSome_eq (total : d.Total) (total' : e.Total) (hd : d.Canonical)
    (he : e.Canonical) (alphabet : d.alphabet = e.alphabet) (w : List Char) :
    (d.run w).isSome = (e.run w).isSome := by
  rw [Bool.eq_iff_iff, total.run_isSome_iff hd.built.wellFormed hd.pos,
    total'.run_isSome_iff he.built.wellFormed he.pos, OverAlphabet, OverAlphabet, alphabet]

/-- **Automata with the same language have the same minimal automaton**, if no edge of theirs is
missing or none of their states is dead, as far as words lead to them.  How their states are
numbered does not matter, nor do the states that no word leads to.  The hypothesis `alike` cannot
be dropped, and it has to hold of both automata in the same way. -/
theorem minimize_unique (hd : d.Built) (he : e.Built) (hd₀ : 0 < d.numStates)
    (he₀ : 0 < e.numStates) (alphabet : d.alphabet = e.alphabet) (symbols : d.alphabet ≠ ∅)
    (lang : ∀ w, d.accepts w = e.accepts w)
    (alike :
      ((∀ s ∈ d.reachable, ∀ c ∈ d.alphabet, d.transition s c ≠ none) ∧
        (∀ s ∈ e.reachable, ∀ c ∈ e.alphabet, e.transition s c ≠ none)) ∨
      ((∀ s ∈ d.reachable, d.isDead s = false) ∧ (∀ s ∈ e.reachable, e.isDead s = false))) :
    ∃ m m', d.minimize = .ok m ∧ e.minimize = .ok m' ∧ m.numStates = m'.numStates ∧
      m.start = m'.start ∧ m.acceptStates = m'.acceptStates ∧
      m.transitions = m'.transitions := by
  obtain ⟨m, hm, canonical, alphabet_eq, accepts_eq, total, live⟩ :=
    minimize_of_symbols hd hd₀ symbols
  obtain ⟨m', hm', canonical', alphabet_eq', accepts_eq', total', live'⟩ :=
    minimize_of_symbols he he₀ (alphabet ▸ symbols)
  have alphabet_eq : m.alphabet = m'.alphabet := by
    rw [alphabet_eq, alphabet_eq', alphabet]
  have accepts_eq : ∀ w, m.accepts w = m'.accepts w := fun w => by
    rw [accepts_eq, accepts_eq', lang]
  have runs : ∀ w, (m.run w).isSome = (m'.run w).isSome := by
    rcases alike with ⟨full, full'⟩ | ⟨alive, alive'⟩
    · exact (total (fullWhereReached hd₀ full)).run_isSome_eq
        (total' (fullWhereReached he₀ full')) canonical canonical' alphabet_eq
    · exact (live (hd.liveWhereReached hd₀ alive)).run_isSome_eq
        (live' (he.liveWhereReached he₀ alive')) accepts_eq
  have same := canonical.same canonical' alphabet_eq accepts_eq runs
  exact ⟨m, m', hm, hm', same.numStates_eq, same.start_eq, same.acceptStates_eq,
    same.transitions_eq⟩

/-- One state, and three of which two take turns and none leads to the other.  An edge is missing
in either, but no state that is reached is dead. -/
theorem minimize_unique_of_turns :
    let d := ((withAlphabet (.ofList ['a', 'b'])).addState true).file 0 'a' 0
    let e := (((((withAlphabet (.ofList ['a', 'b'])).addState true).addState false).addState
      true).file 0 'a' 2).file 2 'a' 0 |>.file 1 'b' 0
    ∃ m m', d.minimize = .ok m ∧ e.minimize = .ok m' ∧ m.numStates = m'.numStates ∧
      m.start = m'.start ∧ m.acceptStates = m'.acceptStates ∧
      m.transitions = m'.transitions := by
  intro d e
  have file : ∀ {dfa : Dfa} {source target : Nat} {c : Char}, dfa.Built →
      dfa.addTransition source c target = .ok (dfa.file source c target) →
        (dfa.file source c target).Built := fun built hadd => built.addTransition hadd
  have hd : d.Built := file ((Built.withAlphabet _).addState true) rfl
  have he : e.Built := file (file (file
    ((((Built.withAlphabet _).addState true).addState false).addState true) rfl) rfl) rfl
  have step : ∀ c, d.transition 0 c = if c = 'a' then some 0 else none := fun c => by
    simp [d, transition_file]
  have turn : ∀ c, e.transition 0 c = if c = 'a' then some 2 else none := fun c => by
    simp [e, transition_file]
  have turn_back : ∀ c, e.transition 2 c = if c = 'a' then some 0 else none := fun c => by
    simp [e, transition_file]
  have lang : ∀ w, d.acceptsFrom 0 w = e.acceptsFrom 0 w ∧
      d.acceptsFrom 0 w = e.acceptsFrom 2 w := by
    intro w
    induction w with
    | nil => exact ⟨rfl, rfl⟩
    | cons c w ih =>
        rw [acceptsFrom_cons, acceptsFrom_cons, acceptsFrom_cons, step, turn, turn_back]
        by_cases hc : c = 'a'
        · rw [if_pos hc, if_pos hc]
          exact ih.symm
        · rw [if_neg hc, if_neg hc]
          exact ⟨rfl, rfl⟩
  refine minimize_unique hd he Nat.one_pos (Nat.succ_pos 2) (by rfl) ?_ (fun w => (lang w).1)
    (.inr ⟨fun s hs => ?_, fun s hs => ?_⟩)
  · exact fun h => absurd (congrArg (·.contains 'a') h) (by decide)
  · have alive : (d.reachable.toList.all fun s => !d.isDead s) = true := by cbv
    simpa using List.all_eq_true.1 alive s (Std.ExtTreeSet.mem_toList.2 hs)
  · have alive : (e.reachable.toList.all fun s => !e.isDead s) = true := by cbv
    simpa using List.all_eq_true.1 alive s (Std.ExtTreeSet.mem_toList.2 hs)

end PatternAutomata.Dfa
