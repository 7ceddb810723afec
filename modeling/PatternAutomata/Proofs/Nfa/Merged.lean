import PatternAutomata.Proofs.Minimize.Mapping
import PatternAutomata.Proofs.Nfa.ActiveSets

/-!
# What the states of a minimized powerset stand for

A state of the minimal automaton stands for the states of the nondeterministic automaton that are
active after some word that leads there (`Nfa.minimize_mapping`).

## Three automata read the same word

The word leads the nondeterministic automaton to a set of active states, the powerset to the state
for this set, and the minimal automaton to the state that replaces that one.  So what the replaced
states stand for is what is active after the words that lead to the state that replaces them
(`Nfa.mem_merged_iff`).

The argument needs the powerset to be complete: then every word over the alphabet leads somewhere
in all three automata, and words can be used for states throughout.  A dead state of the powerset
stands for no active states and adds nothing to the list.
-/

namespace PatternAutomata.Nfa

variable {strategy : Strategy} {nfa : Nfa} {d m : Dfa}
  {mapping merged : Std.ExtTreeMap Nat (List Nat)}

/-- A state of the powerset stands for what is active after any word that leads there, and all
such words leave the same states active. -/
theorem Tracks.eq_active (tracks : nfa.Tracks d mapping) (det : nfa.Determinizes d) {w : List Char}
    {s : Nat} (h : d.run w = some s) : mapping[s]? = some (nfa.active w).toList := by
  obtain ⟨t, ht, hlist, -⟩ := tracks.exists_run w (det.built.wellFormed.overAlphabet_of_runFrom h)
  rw [h, Option.some.injEq] at ht
  exact ht ▸ hlist

theorem Tracks.sorted (tracks : nfa.Tracks d mapping) (det : nfa.Determinizes d) {s : Nat}
    {list : List Nat} (h : mapping[s]? = some list) : list.Pairwise (· < ·) := by
  obtain ⟨w, hw⟩ := det.accessible s ((tracks.lt_iff s).2 ⟨list, h⟩)
  rw [tracks.eq_active det hw, Option.some.injEq] at h
  exact h ▸ (nfa.active w).ordered_toList.imp Nat.compare_eq_lt.1

/-- **A state of the minimal automaton stands for what is active after the words that lead to
it.**  Here different words may leave different states active, and the list has all of them. -/
theorem mem_merged_iff (tracks : nfa.Tracks d mapping) (det : nfa.Determinizes d)
    (merges : m.Merges d mapping merged) (canonical : m.Canonical) (total : m.Total)
    (alphabet_eq : m.alphabet = d.alphabet) (accepts_eq : ∀ w, m.accepts w = d.accepts w)
    {q : Nat} {list : List Nat} (hlist : merged[q]? = some list) {s : Nat} :
    s ∈ list ↔ ∃ w, m.run w = some q ∧ s ∈ nfa.active w := by
  have hq : q < m.numStates := (merges.lt_iff q).2 ⟨list, hlist⟩
  have replaces : ∀ r, m.Replaces d q r ↔ ∃ w, d.run w = some r ∧ m.run w = some q := fun r =>
    canonical.replaces_iff total det.built.wellFormed alphabet_eq accepts_eq hq
  rw [merges.mem_iff q list hlist s]
  constructor
  · rintro ⟨r, hr, hs⟩
    obtain ⟨w, hdw, hmw⟩ := (replaces r).1 hr
    refine ⟨w, hmw, ?_⟩
    rwa [tracks.eq_active det hdw, Option.getD_some, Std.ExtTreeSet.mem_toList] at hs
  · rintro ⟨w, hmw, hs⟩
    have hword : d.OverAlphabet w := fun c hc =>
      alphabet_eq ▸ canonical.built.wellFormed.overAlphabet_of_runFrom hmw c hc
    obtain ⟨r, hr, hlist', -⟩ := tracks.exists_run w hword
    refine ⟨r, (replaces r).2 ⟨w, hr, hmw⟩, ?_⟩
    rwa [hlist', Option.getD_some, Std.ExtTreeSet.mem_toList]

/-- **What the states stand for after minimization.**  Every state of the minimal automaton of a
powerset stands for a list, and nothing else does.  The list ascends, and it holds exactly the
states that are active after some word over the alphabet that leads to the state.  Every such word
leads to a state, whose list holds everything that is active after it.  All this is so as well if
the powerset has one state or no symbols and is its own minimal automaton. -/
theorem minimize_mapping (obtained : Obtainable strategy nfa) {limit : Nat}
    (hok : strategy.determinize nfa limit = .ok d) :
    ∃ (m : Dfa) (merged : Std.ExtTreeMap Nat (List Nat)), d.minimize = .ok m ∧
      m.mapping = some merged ∧
      (∀ q : Nat, q < m.numStates ↔ ∃ list, merged[q]? = some list) ∧
      (∀ (q : Nat) (list : List Nat), merged[q]? = some list → list.Pairwise (· < ·) ∧
        ∀ s, s ∈ list ↔ ∃ w, (∀ c ∈ w, c ∈ nfa.alphabet) ∧ m.run w = some q ∧
          s ∈ strategy.activeAfter nfa w) ∧
      (∀ w, (∀ c ∈ w, c ∈ nfa.alphabet) →
        ∃ (q : Nat) (list : List Nat), m.run w = some q ∧ merged[q]? = some list ∧
          ∀ s ∈ strategy.activeAfter nfa w, s ∈ list) := by
  rw [Strategy.determinize_eq] at hok
  obtain ⟨mapping, tracks⟩ := tracks_of_determinize obtained.wellFormed hok
  have det := determinizes_of_determinize obtained.wellFormed hok
  obtain ⟨m, merged, hm, hmerged, merges, canonical, total, alphabet_eq, accepts_eq⟩ :=
    Dfa.exists_merged det.built det.pos det.total det.accessible tracks.mapping_eq tracks.lt_iff
      fun s list h => tracks.sorted det h
  have wfm := canonical.built.wellFormed
  have symbols : ∀ c, c ∈ m.alphabet ↔ c ∈ nfa.alphabet := by
    intro c
    rw [alphabet_eq, det.alphabet_eq]
  -- the words are over the alphabet as they lead somewhere, so this need not be said here
  have mem_iff : ∀ (q : Nat) list, merged[q]? = some list → ∀ s, s ∈ list ↔
      ∃ w, m.run w = some q ∧ s ∈ strategy.activeAfter nfa w := by
    intro q list hlist s
    simp only [Strategy.activeAfter_eq, Std.ExtTreeSet.mem_toList]
    exact mem_merged_iff tracks det merges canonical total alphabet_eq accepts_eq hlist
  refine ⟨m, merged, hm, hmerged, merges.lt_iff, fun q list hlist => ⟨merges.sorted q list hlist,
    fun s => ?_⟩, fun w hw => ?_⟩
  · rw [mem_iff q list hlist s]
    constructor
    · rintro ⟨w, hw, hs⟩
      exact ⟨w, fun c hc => (symbols c).1 (wfm.overAlphabet_of_runFrom hw c hc), hw, hs⟩
    · rintro ⟨w, -, hw, hs⟩
      exact ⟨w, hw, hs⟩
  · have hword : m.OverAlphabet w := fun c hc => (symbols c).2 (hw c hc)
    obtain ⟨q, hq⟩ := total.exists_run wfm canonical.pos hword
    obtain ⟨list, hlist⟩ := (merges.lt_iff q).1 (wfm.run_lt canonical.pos hq)
    exact ⟨q, list, hq, hlist, fun s hs => (mem_iff q list hlist s).2 ⟨w, hq, hs⟩⟩

/-- After either of two letters something else is active, but the minimal automaton is in the same
state, which stands for what is active after the one and after the other. -/
theorem minimize_mapping_of_choice :
    ∃ nfa d, Obtainable .hash nfa ∧ Strategy.hash.determinize nfa 4 = .ok d ∧
      ∃ (m : Dfa) (merged : Std.ExtTreeMap Nat (List Nat)) (q : Nat) (list : List Nat),
        d.minimize = .ok m ∧ m.mapping = some merged ∧ merged[q]? = some list ∧
        m.run ['a'] = some q ∧ m.run ['b'] = some q ∧ list.Pairwise (· < ·) ∧
        (∀ s ∈ Strategy.hash.activeAfter nfa ['a'], s ∈ list) ∧
        ∀ s ∈ Strategy.hash.activeAfter nfa ['b'], s ∈ list := by
  have hsame : (do
      let nfa ← Strategy.hash.union (.oneOf ['a']) (.oneOf ['b'])
      let d ← Strategy.hash.determinize nfa 4
      let m ← d.minimize
      return (nfa.alphabet.toList, m.run ['a'] == m.run ['b'])) = .ok (['a', 'b'], true) := by cbv
  obtain ⟨nfa, hnfa, hsame⟩ := Error.bind_eq_ok_iff.1 hsame
  obtain ⟨d, hd, hsame⟩ := Error.bind_eq_ok_iff.1 hsame
  obtain ⟨m, hm, hsame⟩ := Error.bind_eq_ok_iff.1 hsame
  obtain ⟨hsymbols, hruns⟩ := Prod.mk.inj (Except.ok.inj hsame)
  have obtained : Obtainable .hash nfa := .union (.oneOf .hash ['a']) (.oneOf .hash ['b']) hnfa
  have symbols : ∀ c, c ∈ nfa.alphabet ↔ c = 'a' ∨ c = 'b' := by
    intro c
    rw [← Std.ExtTreeSet.mem_toList, hsymbols, List.mem_pair]
  obtain ⟨m', merged, hm', hmerged, -, lists, words⟩ := minimize_mapping obtained hd
  obtain rfl : m = m' := Except.ok.inj (hm.symm.trans hm')
  obtain ⟨q, list, ha, hlist, hactive⟩ := words ['a'] (by simp [symbols])
  obtain ⟨q', list', hb, hlist', hactive'⟩ := words ['b'] (by simp [symbols])
  rw [beq_iff_eq, ha, hb, Option.some.injEq] at hruns
  subst hruns
  rw [hlist, Option.some.injEq] at hlist'
  subst hlist'
  exact ⟨nfa, d, obtained, hd, m, merged, q, list, hm, hmerged, hlist, ha, hb,
    (lists q list hlist).1, hactive, hactive'⟩

end PatternAutomata.Nfa
