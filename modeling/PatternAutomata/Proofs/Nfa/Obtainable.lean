import Mathlib
import PatternAutomata.Nfa.Builder
import PatternAutomata.Proofs.Minimize.Quotient
import PatternAutomata.Proofs.Nfa.OfDfa
import PatternAutomata.Proofs.Nfa.OfRegex
import PatternAutomata.Proofs.Powerset

/-!
# Nondeterministic automata that can be obtained

A nondeterministic automaton comes out of a builder, a pattern, a deterministic automaton, or one
of the operators.  Whatever way it was obtained, its edges lead to states and carry symbols of its
alphabet (`Nfa.Obtainable.wellFormed`), and the powerset construction keeps track of its active
states (`Nfa.determinize_tracks`).

## Why automata are not just any records

The record of an automaton may hold anything: a start state that is not there, or a target without
a row.  Such records cannot be obtained, and theorems about them would need hypotheses that no
caller could check.  `Nfa.Obtainable` has one rule for each way to make an automaton, and it is
used as the hypothesis instead.  Deterministic automata are admitted as starting points if they
have a state, because those that come out of a pattern or out of the powerset construction do.

## Strategies

A strategy is part of an automaton's history and not of the automaton: it decides which steps
succeed.  An automaton may be handed from one strategy to another if the other can hold it, and so
the strategy is an index of the relation.

## Builders

What is in the making may have no start state yet, so it is not an automaton.  `Nfa.Builder.Sound`
says of it what can be said already, and it becomes well-formedness once it is built.
-/

namespace PatternAutomata.Nfa

/-! ### Builders -/

namespace Builder

/-- The automata in the making that steps lead to.  A refused step leaves things as they are, so
refusals need no rule. -/
inductive Reached (strategy : Strategy) : Builder → Prop where
  | empty : Reached strategy .empty
  | addState {b b' : Builder} :
      Reached strategy b → b.addState strategy = .ok b' → Reached strategy b'
  | addEdge {b b' : Builder} {source target : Nat} {label : Label} :
      Reached strategy b → b.addEdge source label target = .ok b' → Reached strategy b'
  | setStart {b b' : Builder} {state : Nat} :
      Reached strategy b → b.setStart state = .ok b' → Reached strategy b'
  | addAccepting {b b' : Builder} {state : Nat} :
      Reached strategy b → b.addAccepting state = .ok b' → Reached strategy b'

/-- Everything that has been named is there: the start state if it has been chosen, the accepting
states, and the ends of edges. -/
structure Sound (b : Builder) : Prop where
  start_lt : ∀ s, b.start = some s → s < b.numStates
  accepting_lt : ∀ s ∈ b.accepting, s < b.numStates
  target_lt : ∀ s l t, Leads b.rows s l t → t < b.numStates
  mem_alphabet : ∀ s c t, Leads b.rows s (.symbol c) t → c ∈ b.alphabet

variable {strategy : Strategy} {b b' : Builder}

/-- A state passes the check only if it is there, and a number that is no state yet is refused. -/
theorem lt_of_checkState {state : Nat} {u : Unit} (h : b.checkState state = .ok u) :
    state < b.numStates := by
  unfold checkState at h
  by_cases hlt : state < b.numStates
  · exact hlt
  · rw [if_neg hlt] at h
    cases h

theorem Sound.empty : Sound .empty where
  start_lt _ h := nomatch h
  accepting_lt _ h := absurd h Std.ExtTreeSet.not_mem_empty
  target_lt s _ _ h := absurd h.lt (Nat.not_lt_zero s)
  mem_alphabet s _ _ h := absurd h.lt (Nat.not_lt_zero s)

theorem Sound.addState (sound : b.Sound) (h : b.addState strategy = .ok b') : b'.Sound := by
  obtain rfl := Error.eq_of_check h
  -- the new state has no edges, so every edge is an old one
  have hold : ∀ s l t, Leads (b.rows.push .empty) s l t → Leads b.rows s l t := by
    intro s l t hleads
    rw [Array.push_eq_append, leads_append] at hleads
    rcases hleads with hleads | ⟨r, _, hleads⟩
    · exact hleads
    · exact absurd (leads_singleton.1 hleads).2 (not_mem_targets_empty l)
  refine ⟨fun s hs => ?_, fun s hs => ?_, fun s l t hleads => ?_, fun s c t hleads => ?_⟩
  · exact (sound.start_lt s hs).trans_le (by simp [numStates])
  · exact (sound.accepting_lt s hs).trans_le (by simp [numStates])
  · exact (sound.target_lt s l t (hold s l t hleads)).trans_le (by simp [numStates])
  · exact sound.mem_alphabet s c t (hold s _ t hleads)

theorem Sound.addEdge (sound : b.Sound) {source target : Nat} {label : Label}
    (h : b.addEdge source label target = .ok b') : b'.Sound := by
  obtain ⟨_, -, h⟩ := Error.bind_eq_ok_iff.1 h
  obtain ⟨_, htarget, h⟩ := Error.bind_eq_ok_iff.1 h
  cases h
  have htarget := lt_of_checkState htarget
  have hsize : ∀ f : Row → Row, (b.rows.modify source f).size = b.rows.size := fun f =>
    Array.size_modify ..
  refine ⟨fun s hs => ?_, fun s hs => ?_, fun s l t hleads => ?_, fun s c t hleads => ?_⟩
  · exact (sound.start_lt s hs).trans_eq (hsize _).symm
  · exact (sound.accepting_lt s hs).trans_eq (hsize _).symm
  · refine Nat.lt_of_lt_of_eq ?_ (hsize _).symm
    rcases leads_modify_addEdge.1 hleads with hleads | ⟨_, _, _, rfl⟩
    · exact sound.target_lt s l t hleads
    · exact htarget
  · rcases leads_modify_addEdge.1 hleads with hleads | ⟨rfl, _, _, _⟩
    · have hc := sound.mem_alphabet s c t hleads
      cases label with
      | epsilon => exact hc
      | symbol d => exact Std.ExtTreeSet.mem_insert.2 (.inr hc)
    · exact Std.ExtTreeSet.mem_insert_self

theorem Sound.setStart (sound : b.Sound) {state : Nat} (h : b.setStart state = .ok b') :
    b'.Sound := by
  obtain ⟨_, hstate, h⟩ := Error.bind_eq_ok_iff.1 h
  cases h
  refine ⟨?_, sound.accepting_lt, sound.target_lt, sound.mem_alphabet⟩
  rintro s ⟨⟩
  exact lt_of_checkState hstate

theorem Sound.addAccepting (sound : b.Sound) {state : Nat} (h : b.addAccepting state = .ok b') :
    b'.Sound := by
  obtain ⟨_, hstate, h⟩ := Error.bind_eq_ok_iff.1 h
  cases h
  refine ⟨sound.start_lt, ?_, sound.target_lt, sound.mem_alphabet⟩
  intro s hs
  rw [Std.ExtTreeSet.mem_insert, Nat.compare_eq_eq] at hs
  rcases hs with rfl | hs
  · exact lt_of_checkState hstate
  · exact sound.accepting_lt s hs

/-- **Whatever steps are taken, everything that has been named is there.**  States are never taken
away, so what was there stays there. -/
theorem Reached.sound (h : Reached strategy b) : b.Sound := by
  induction h with
  | empty => exact .empty
  | addState _ hstep ih => exact ih.addState hstep
  | addEdge _ hstep ih => exact ih.addEdge hstep
  | setStart _ hstep ih => exact ih.setStart hstep
  | addAccepting _ hstep ih => exact ih.addAccepting hstep

theorem Sound.wellFormed_of_build (sound : b.Sound) {nfa : Nfa} (h : b.build = .ok nfa) :
    nfa.WellFormed := by
  unfold build at h
  cases hstart : b.start with
  | none =>
      rw [hstart] at h
      cases h
  | some start =>
      rw [hstart] at h
      cases h
      exact wellFormed_of_leads (sound.start_lt start hstart) sound.accepting_lt sound.target_lt
        sound.mem_alphabet

end Builder

/-! ### Deterministic automata as starting points -/

theorem WellFormed.empty : Nfa.empty.WellFormed := by
  have none : ∀ s l t, ¬ Leads Nfa.empty.rows s l t := fun s l t h =>
    not_mem_targets_empty l (leads_singleton.1 h).2
  exact wellFormed_of_leads Nat.one_pos (fun s h => absurd h Std.ExtTreeSet.not_mem_empty)
    (fun s l t h => absurd h (none s l t)) (fun s c t h => absurd h (none s _ t))

/-- A deterministic automaton with a state is a well formed nondeterministic one.  Without a state
it would have a start state that is not there. -/
theorem wellFormed_toNfa {d : Dfa} (built : d.Built) (pos : 0 < d.numStates) :
    d.toNfa.WellFormed where
  start_lt := d.numStates_toNfa ▸ built.wellFormed.start_lt pos
  accepting_lt s h := by
    rw [d.numStates_toNfa]
    exact List.mem_range.1 (List.mem_filter.1 (StateSet.mem_ofList.1 h)).1
  silent_lt s t h := by
    rw [d.silent_toNfa] at h
    exact absurd h Std.ExtTreeSet.not_mem_empty
  on_lt s c t h := d.numStates_toNfa ▸ built.wellFormed.target_lt (Dfa.mem_on_toNfa.1 h)
  mem_alphabet s c t h := built.wellFormed.mem_alphabet (Dfa.mem_on_toNfa.1 h)

/-- **The result comes from a canonical automaton**, complete over the alphabet and for the same
words, which is within the ceiling and the capacity. -/
theorem exists_minimal {nfa r : Nfa} {strategy : Strategy} {limit : Nat} (wf : nfa.WellFormed)
    (h : nfa.minimize strategy limit = .ok r) :
    ∃ m : Dfa, r = m.toNfa ∧ m.Canonical ∧ m.Total ∧ m.alphabet = nfa.alphabet ∧
      (∀ w, m.accepts w = nfa.accepts w) ∧ m.numStates ≤ limit ∧
      strategy.check m.numStates = .ok () := by
  obtain ⟨whole, hwhole, h⟩ := Error.bind_eq_ok_iff.1 h
  obtain ⟨m, hm, h⟩ := Error.bind_eq_ok_iff.1 h
  obtain ⟨_, fits, h⟩ := Error.bind_eq_ok_iff.1 h
  cases h
  have det := Strategy.determinizes_of_determinize wf hwhole
  obtain ⟨m', hm', canonical, total, alphabet_eq, accepts_eq⟩ :=
    Dfa.minimize_canonical det.built det.pos det.total det.accessible
  rw [hm] at hm'
  cases hm'
  refine ⟨m, rfl, canonical, total, alphabet_eq.trans det.alphabet_eq,
    fun w => (accepts_eq w).trans (det.accepts_eq w), ?_, fits⟩
  exact (canonical.numStates_le det.built.wellFormed det.pos det.total alphabet_eq.symm
    fun w => (accepts_eq w).symm).trans
      (numStates_le_of_determinize ((strategy.determinize_eq nfa limit).symm.trans hwhole))

/-- The minimal automaton of a well formed one is well formed, as it comes from a deterministic
automaton with a state. -/
theorem wellFormed_of_minimize {nfa minimal : Nfa} (wf : nfa.WellFormed) {strategy : Strategy}
    {limit : Nat} (h : nfa.minimize strategy limit = .ok minimal) : minimal.WellFormed := by
  obtain ⟨m, rfl, canonical, -⟩ := exists_minimal wf h
  exact wellFormed_toNfa canonical.built canonical.pos

/-! ### Automata that can be obtained -/

/-- **The automata that can be obtained**, by any constructors and operators, with the sets of a
strategy.  Where an operation may be refused, the rule has as a premise that it was not. -/
inductive Obtainable : Strategy → Nfa → Prop where
  | build {strategy : Strategy} {b : Builder} {nfa : Nfa} :
      b.Reached strategy → b.build = .ok nfa → Obtainable strategy nfa
  | oneOf (strategy : Strategy) (symbols : List Char) : Obtainable strategy (.oneOf symbols)
  | epsilon (strategy : Strategy) : Obtainable strategy .epsilon
  | empty (strategy : Strategy) : Obtainable strategy .empty
  | union {strategy : Strategy} {a b nfa : Nfa} : Obtainable strategy a → Obtainable strategy b →
      strategy.union a b = .ok nfa → Obtainable strategy nfa
  | concat {strategy : Strategy} {a b nfa : Nfa} : Obtainable strategy a →
      Obtainable strategy b → strategy.concat a b = .ok nfa → Obtainable strategy nfa
  | star {strategy : Strategy} {a nfa : Nfa} : Obtainable strategy a →
      strategy.star a = .ok nfa → Obtainable strategy nfa
  | plus {strategy : Strategy} {a nfa : Nfa} : Obtainable strategy a →
      strategy.plus a = .ok nfa → Obtainable strategy nfa
  | optional {strategy : Strategy} {a nfa : Nfa} : Obtainable strategy a →
      strategy.optional a = .ok nfa → Obtainable strategy nfa
  | ofDfa {strategy : Strategy} {d : Dfa} {nfa : Nfa} : d.Built → 0 < d.numStates →
      Nfa.ofDfa strategy d = .ok nfa → Obtainable strategy nfa
  | adopt {strategy other : Strategy} {a nfa : Nfa} : Obtainable other a →
      strategy.adopt a = .ok nfa → Obtainable strategy nfa
  | ofPattern {strategy : Strategy} (config : Config) (pattern : List Char) {nfa : Nfa} :
      Nfa.ofPattern config strategy pattern = .ok nfa → Obtainable strategy nfa
  | minimize {strategy : Strategy} {a nfa : Nfa} (limit : Nat) : Obtainable strategy a →
      a.minimize strategy limit = .ok nfa → Obtainable strategy nfa

/-- **Every automaton that can be obtained is well formed**, by one case for each way to obtain
it. -/
theorem Obtainable.wellFormed {strategy : Strategy} {nfa : Nfa} (h : Obtainable strategy nfa) :
    nfa.WellFormed := by
  induction h with
  | build reached hbuild => exact reached.sound.wellFormed_of_build hbuild
  | oneOf _ symbols => exact .oneOf symbols
  | epsilon => exact .epsilon
  | empty => exact .empty
  | union _ _ hok iha ihb =>
      obtain rfl := Error.eq_of_check hok
      exact iha.union ihb
  | concat _ _ hok iha ihb =>
      obtain rfl := Error.eq_of_check hok
      exact iha.concat ihb
  | star _ hok ih =>
      obtain rfl := Error.eq_of_check hok
      exact ih.star
  | plus _ hok ih =>
      obtain rfl := Error.eq_of_check hok
      exact ih.plus
  | optional _ hok ih =>
      obtain rfl := Error.eq_of_check hok
      exact ih.optional
  | ofDfa built pos hok =>
      obtain rfl := Error.eq_of_check hok
      exact wellFormed_toNfa built pos
  | adopt _ hok ih =>
      obtain rfl := Error.eq_of_check hok
      exact ih
  | ofPattern config pattern hok => exact wellFormed_of_ofPattern hok
  | minimize limit _ hok ih => exact wellFormed_of_minimize ih hok

/-! ### Keeping track of the active states -/

/-- **The powerset construction keeps track of the active states.**  The automaton is complete
over the alphabet.  Every word over it leads to a state that stands for the states active after
the word, in ascending order, and that accepts if one of these does.  No two states stand for the
same list, all are reached, and they are numbered breadth first, but for a state in which nothing
is active, which comes last.  So the same inputs are accepted, whatever symbols they hold. -/
theorem determinize_tracks {strategy : Strategy} {nfa : Nfa} (obtained : Obtainable strategy nfa)
    {limit : Nat} {d : Dfa} (hok : strategy.determinize nfa limit = .ok d) :
    d.alphabet = nfa.alphabet ∧ d.isComplete = true ∧ d.start = 0 ∧
    (∃ mapping : Std.ExtTreeMap Nat (List Nat), d.mapping = some mapping ∧
      (∀ s : Nat, s < d.numStates ↔ ∃ list, mapping[s]? = some list) ∧
      (∀ w, (∀ c ∈ w, c ∈ nfa.alphabet) →
        ∃ (q : Nat) (list : List Nat), d.run w = some q ∧ mapping[q]? = some list ∧
          list = StateStore.toList (w.foldl nfa.advanceIn (nfa.initialIn strategy.Store)) ∧
          list.Pairwise (· < ·) ∧ (∀ s, s ∈ list ↔ nfa.Path nfa.start w s) ∧
          (d.isAccepting q = true ↔ ∃ s ∈ list, s ∈ nfa.accepting)) ∧
      (∀ (s t : Nat) list, mapping[s]? = some list → mapping[t]? = some list → s = t) ∧
      (∀ s t : Nat, s < t → mapping[t]? ≠ some [] → ∀ w, d.run w = some t →
        ∃ v, d.run v = some s ∧ List.Shortlex (· < ·) v w) ∧
      (∀ s : Nat, mapping[s]? = some [] → s + 1 = d.numStates)) ∧
    (∀ s, s < d.numStates → ∃ w, (∀ c ∈ w, c ∈ nfa.alphabet) ∧ d.run w = some s) ∧
    (∀ w, d.accepts w = strategy.accepts nfa w) := by
  have wf := obtained.wellFormed
  rw [Strategy.determinize_eq] at hok
  obtain ⟨mapping, tracks⟩ := tracks_of_determinize wf hok
  have det := determinizes_of_determinize wf hok
  have wfd := det.built.wellFormed
  have overAlphabet : ∀ w, d.OverAlphabet w ↔ ∀ c ∈ w, c ∈ nfa.alphabet := by
    intro w
    rw [Dfa.OverAlphabet, det.alphabet_eq]
  refine ⟨det.alphabet_eq, (Dfa.isComplete_iff wfd).2 det.total, det.start_eq,
    ⟨mapping, tracks.mapping_eq, tracks.lt_iff, ?_, tracks.injective, tracks.breadthFirst,
      tracks.dead_last⟩, ?_, ?_⟩
  -- what is active is told by the sets of the strategy, which hold the states on paths
  · intro w hw
    obtain ⟨q, hq, hlist, haccepting⟩ := tracks.exists_run w ((overAlphabet w).2 hw)
    refine ⟨q, _, hq, hlist, ?_, (nfa.active w).ordered_toList.imp Nat.compare_eq_lt.1, ?_, ?_⟩
    · rw [StateStore.toList_eq, elements_foldl_advanceIn]
      rfl
    · intro s
      rw [Std.ExtTreeSet.mem_toList, mem_active]
    · rw [haccepting, StateSet.intersects_iff]
      simp only [Std.ExtTreeSet.mem_toList]
  · intro s hs
    obtain ⟨w, hw⟩ := det.accessible s hs
    exact ⟨w, (overAlphabet w).1 (wfd.overAlphabet_of_runFrom hw), hw⟩
  · intro w
    rw [det.accepts_eq, Strategy.accepts_eq]

/-- Two states that lead to each other without reading, and a third behind a symbol.  So the first
set of active states has two members. -/
theorem determinize_tracks_of_cycle :
    ∃ nfa d, Obtainable .bit nfa ∧ Strategy.bit.determinize nfa 3 = .ok d ∧
      d.isComplete = true ∧
      (∃ mapping : Std.ExtTreeMap Nat (List Nat), d.mapping = some mapping ∧
        ∀ w, (∀ c ∈ w, c ∈ nfa.alphabet) → ∃ (q : Nat) (list : List Nat), d.run w = some q ∧
          mapping[q]? = some list ∧ ∀ s, s ∈ list ↔ nfa.Path nfa.start w s) ∧
      ∀ w, d.accepts w = Strategy.bit.accepts nfa w := by
  have hsome : (do
      let b ← Builder.addState .bit .empty
      let b ← b.addState .bit
      let b ← b.addState .bit
      let b ← b.addEdge 0 .epsilon 1
      let b ← b.addEdge 1 .epsilon 0
      let b ← b.addEdge 1 (.symbol 'a') 2
      let b ← b.addAccepting 0
      let b ← b.addAccepting 2
      let b ← b.setStart 0
      let nfa ← b.build
      Strategy.bit.determinize nfa 3).toOption.isSome = true := by cbv
  obtain ⟨d, hd⟩ := Error.exists_ok_of_isSome hsome
  obtain ⟨_, h₁, hd⟩ := Error.bind_eq_ok_iff.1 hd
  obtain ⟨_, h₂, hd⟩ := Error.bind_eq_ok_iff.1 hd
  obtain ⟨_, h₃, hd⟩ := Error.bind_eq_ok_iff.1 hd
  obtain ⟨_, h₄, hd⟩ := Error.bind_eq_ok_iff.1 hd
  obtain ⟨_, h₅, hd⟩ := Error.bind_eq_ok_iff.1 hd
  obtain ⟨_, h₆, hd⟩ := Error.bind_eq_ok_iff.1 hd
  obtain ⟨_, h₇, hd⟩ := Error.bind_eq_ok_iff.1 hd
  obtain ⟨_, h₈, hd⟩ := Error.bind_eq_ok_iff.1 hd
  obtain ⟨b, h₉, hd⟩ := Error.bind_eq_ok_iff.1 hd
  obtain ⟨nfa, hbuild, hd⟩ := Error.bind_eq_ok_iff.1 hd
  have reached : b.Reached .bit := ((((((((Builder.Reached.empty.addState h₁).addState h₂).addState
    h₃).addEdge h₄).addEdge h₅).addEdge h₆).addAccepting h₇).addAccepting h₈).setStart h₉
  have obtained : Obtainable .bit nfa := .build reached hbuild
  obtain ⟨-, complete, -, ⟨mapping, hmapping, -, tracks, -⟩, -, accepts⟩ :=
    determinize_tracks obtained hd
  refine ⟨nfa, d, obtained, hd, complete, ⟨mapping, hmapping, ?_⟩, accepts⟩
  intro w hw
  obtain ⟨q, list, hq, hlist, -, -, hpath, -⟩ := tracks w hw
  exact ⟨q, list, hq, hlist, hpath⟩

end PatternAutomata.Nfa
