import PatternAutomata.Powerset
import PatternAutomata.Proofs.Alphabet
import PatternAutomata.Proofs.Dfa.Layout
import PatternAutomata.Proofs.Dfa.Morphism
import PatternAutomata.Proofs.Nfa.Path
import PatternAutomata.Proofs.Nfa.Stored

/-!
# The powerset construction

The deterministic automaton accepts what the nondeterministic one accepts.  It has an edge under
every symbol of the alphabet, all its states are reached, and the construction fails only where
the ceiling on states is too low (`Nfa.determinize_spec`).  It does not depend on how the active
states are held (`Strategy.determinize_eq`).

## Words instead of sets

A state stands for a set of active states, and the words accepted from it are those accepted while
these states are active (`Nfa.powerset_follows`).  Where nothing stays active the simulation of
the nondeterministic automaton stops early and an edge is missing; the dead state that takes the
missing edges accepts nothing either.  So the three cases of a step, a next set, no next set, the
end of the word, match one another, and the language follows from what is known of charts in
general.

## What the states stand for

`Nfa.Tracks` is more than the language: every word over the alphabet leads to the state that
stands for the states active after it, different states stand for different sets, and the dead
state, if there is one, stands for the empty set and comes last.  Minimization and the counting of
states need this and not only the language.

## Stored sets

With the sets held in a store the points are other points.  The system represents the one with
sorted sets, by the states that a stored set contains, and so the automaton is the same number by
number.
-/

namespace PatternAutomata

theorem StateSet.isEmpty_eq_false_iff {a : StateSet} : a.isEmpty = false ↔ ∃ s, s ∈ a := by
  rw [← Bool.not_eq_true, Std.ExtTreeSet.isEmpty_iff, Std.ExtTreeSet.eq_empty_iff_forall_not_mem]
  exact Classical.not_forall_not

namespace Nfa

variable {nfa : Nfa}

/-- `nfa.Determinizes d`: what holds of the deterministic automaton `d` of `nfa`.  This is as much
as most later proofs need; which sets the states stand for is not part of it. -/
structure Determinizes (nfa : Nfa) (d : Dfa) : Prop where
  built : d.Built
  pos : 0 < d.numStates
  start_eq : d.start = 0
  total : d.Total
  accessible : d.Accessible
  alphabet_eq : d.alphabet = nfa.alphabet
  accepts_eq : ∀ w, d.accepts w = nfa.accepts w

/-! ### Sets of active states -/

theorem powerset_key_injective (nfa : Nfa) : Function.Injective nfa.powerset.key :=
  fun _ _ h => Std.ExtTreeSet.ext_toList (List.Perm.of_eq h)

theorem mem_powerset_edges {active next : StateSet} {c : Char} :
    (c, next) ∈ nfa.powerset.edges active ↔
      c ∈ nfa.alphabet ∧ next = nfa.advance active c ∧ next.isEmpty = false := by
  simp only [powerset, List.mem_filterMap, Std.ExtTreeSet.mem_toList]
  constructor
  · rintro ⟨b, hb, h⟩
    by_cases hempty : (nfa.advance active b).isEmpty = true
    · rw [if_pos hempty] at h
      cases h
    · rw [if_neg hempty] at h
      cases h
      exact ⟨hb, rfl, Bool.eq_false_iff.2 hempty⟩
  · rintro ⟨hc, rfl, hempty⟩
    refine ⟨c, hc, ?_⟩
    rw [hempty]
    rfl

/-- The edges of a set of active states are in the order of their symbols. -/
theorem powerset_edges_sorted (nfa : Nfa) (active : StateSet) :
    (nfa.powerset.edges active).Pairwise fun e e' => e.1 < e'.1 := by
  refine TransitionSystem.sorted_filterMap (fun c e h => ?_) nfa.alphabet.pairwise_toList
  by_cases hempty : (nfa.advance active c).isEmpty = true
  · simp only [hempty, if_true] at h
    cases h
  · simp only [hempty] at h
    cases h
    rfl

/-- Without an edge under a symbol nothing stays active, or the symbol is foreign to the
automaton, which comes to the same if edges carry symbols of the alphabet. -/
theorem acceptsFrom_of_stuck (wf : nfa.WellFormed) {active : StateSet} {c : Char}
    (stuck : ∀ next, (c, next) ∉ nfa.powerset.edges active) (w : List Char) :
    nfa.acceptsFrom active (c :: w) = false := by
  have hempty : (nfa.advance active c).isEmpty = true := by
    by_contra hne
    by_cases hc : c ∈ nfa.alphabet
    · exact stuck _ (mem_powerset_edges.2 ⟨hc, rfl, Bool.eq_false_iff.2 hne⟩)
    · refine hne (Std.ExtTreeSet.isEmpty_iff.2 (Std.ExtTreeSet.ext_mem fun t => ?_))
      rw [mem_advance]
      constructor
      · rintro ⟨s, -, r, hr, -⟩
        exact absurd (wf.mem_alphabet s c r hr) hc
      · exact fun h => absurd h Std.ExtTreeSet.not_mem_empty
  rw [acceptsFrom]
  exact if_pos hempty

theorem acceptsFrom_cons_of_mem {active next : StateSet} {c : Char}
    (h : (c, next) ∈ nfa.powerset.edges active) (w : List Char) :
    nfa.acceptsFrom active (c :: w) = nfa.acceptsFrom next w := by
  obtain ⟨-, rfl, hempty⟩ := mem_powerset_edges.1 h
  rw [acceptsFrom, hempty]
  rfl

theorem powerset_ascending (nfa : Nfa) : nfa.powerset.Ascending nfa.alphabet where
  mem_alphabet _ _ _ _ he := (mem_powerset_edges.1 he).1
  sorted p _ := nfa.powerset_edges_sorted p

theorem powerset_follows (wf : nfa.WellFormed) :
    nfa.powerset.Follows (fun active => active.intersects nfa.accepting) nfa.acceptsFrom where
  nil _ _ := rfl
  cons _ _ _ _ w he := acceptsFrom_cons_of_mem he w
  stuck _ _ _ w stuck := acceptsFrom_of_stuck wf stuck w

/-! ### Sets of active states are found -/

/-- Something is active in every point of the powerset.  At the start it is the start state, and
an edge only leads to sets in which something is. -/
theorem exists_mem_of_reachable {active : StateSet} (h : nfa.powerset.Reachable active) :
    ∃ t, t ∈ active := by
  cases h with
  | refl => exact ⟨nfa.start, mem_active (w := []).2 (.nil _)⟩
  | tail _ edge =>
      obtain ⟨c, he⟩ := edge
      apply StateSet.isEmpty_eq_false_iff.1
      exact (mem_powerset_edges.1 he).2.2

section

variable {survey : Survey StateSet} {partly d : Dfa} {accepting : StateSet → Bool}

/-- A word leads to a state that stands for the states active after it. -/
theorem found_of_run_chart (done : TransitionSystem.Surveyed nfa.powerset survey)
    (chart : TransitionSystem.Charted nfa.powerset survey nfa.alphabet accepting partly)
    {w : List Char} {s : Nat} (h : partly.run w = some s) :
    survey.found[s]? = some (nfa.active w) := by
  induction w using List.reverseRecOn generalizing s with
  | nil =>
      rw [Dfa.run_nil, chart.start_eq, Option.some.injEq] at h
      subst h
      exact done.start
  | append_singleton w c ih =>
      rw [Dfa.run_concat, Option.bind_eq_some_iff] at h
      obtain ⟨r, hr, hstep⟩ := h
      obtain ⟨p, q, hp, hq, he⟩ := (chart.transition_iff r c s).1 hstep
      rw [ih hr, Option.some.injEq] at hp
      subst hp
      rw [hq, (mem_powerset_edges.1 he).2.1, active_concat]

/-- A word after which something is active leads somewhere. -/
theorem exists_run_chart (wf : nfa.WellFormed)
    (done : TransitionSystem.Surveyed nfa.powerset survey)
    (chart : TransitionSystem.Charted nfa.powerset survey nfa.alphabet accepting partly)
    {w : List Char} {t : Nat} (ht : t ∈ nfa.active w) : ∃ s, partly.run w = some s := by
  induction w using List.reverseRecOn generalizing t with
  | nil => exact ⟨_, rfl⟩
  | append_singleton w c ih =>
      have hc : c ∈ nfa.alphabet :=
        wf.mem_alphabet_of_path (mem_active.1 ht) c (List.mem_append_right _ List.mem_cons_self)
      have before := ht
      rw [active_concat, mem_advance] at before
      obtain ⟨u, hu, -⟩ := before
      obtain ⟨r, hr⟩ := ih hu
      have hfound := found_of_run_chart done chart hr
      have edge : (c, nfa.active (w ++ [c])) ∈ nfa.powerset.edges (nfa.active w) :=
        mem_powerset_edges.2 ⟨hc, nfa.active_concat w c, StateSet.isEmpty_eq_false_iff.2 ⟨t, ht⟩⟩
      obtain ⟨s, hs⟩ := done.mem_found_iff.2 ((done.reachable r _ hfound).tail ⟨c, edge⟩)
      refine ⟨s, ?_⟩
      rw [Dfa.run_concat, hr]
      exact (chart.transition_iff r c s).2 ⟨_, _, hfound, hs, edge⟩

end

/-! ### What the states stand for -/

/-- `nfa.Tracks d mapping`: every word over the alphabet leads to a state of `d`, which stands for
the states of `nfa` that are active after the word, and `d` has no other states.  The last two
fields give the order, which is breadth first but for the dead state behind all others. -/
structure Tracks (nfa : Nfa) (d : Dfa) (mapping : Std.ExtTreeMap Nat (List Nat)) : Prop where
  mapping_eq : d.mapping = some mapping
  lt_iff : ∀ s : Nat, s < d.numStates ↔ ∃ list, mapping[s]? = some list
  exists_run : ∀ w, d.OverAlphabet w → ∃ s, d.run w = some s ∧
    mapping[s]? = some (nfa.active w).toList ∧
    d.isAccepting s = (nfa.active w).intersects nfa.accepting
  injective : ∀ (s t : Nat) list, mapping[s]? = some list → mapping[t]? = some list → s = t
  breadthFirst : ∀ s t : Nat, s < t → mapping[t]? ≠ some [] → ∀ w, d.run w = some t →
    ∃ v, d.run v = some s ∧ List.Shortlex (· < ·) v w
  dead_last : ∀ s : Nat, mapping[s]? = some [] → s + 1 = d.numStates

section

variable {survey : Survey StateSet} {partly d : Dfa} {mapping : Std.ExtTreeMap Nat (List Nat)}

/-- Every word over the alphabet leads to a state that stands for the states active after it.  If
the word was stuck before there was a dead state, nothing is active after it, and this is what the
dead state stands for. -/
theorem exists_run_of_laidOut (wf : nfa.WellFormed)
    (laid : TransitionSystem.LaidOut nfa.powerset survey nfa.alphabet
      (·.intersects nfa.accepting) partly d)
    (keyed : TransitionSystem.Keyed nfa.powerset survey partly d mapping) {w : List Char}
    (hw : d.OverAlphabet w) :
    ∃ s, d.run w = some s ∧ mapping[s]? = some (nfa.active w).toList ∧
      d.isAccepting s = (nfa.active w).intersects nfa.accepting := by
  obtain ⟨s, hs⟩ := laid.total.exists_run laid.built.wellFormed laid.pos hw
  refine ⟨s, hs, ?_⟩
  rw [keyed, laid.isAccepting_eq]
  rcases laid.run_cases hs with hrun | ⟨rfl, hstuck⟩
  · have hactive := found_of_run_chart laid.done laid.chart hrun
    refine ⟨.inl ⟨_, hactive, rfl⟩, ?_⟩
    rw [Bool.eq_iff_iff, laid.chart.isAccepting_iff, hactive]
    simp
  · -- nothing is active after a word that is stuck before the dead state is added
    have hempty : nfa.active w = ∅ := by
      rw [Std.ExtTreeSet.eq_empty_iff_forall_not_mem]
      intro t ht
      obtain ⟨r, hr⟩ := exists_run_chart wf laid.done laid.chart ht
      rw [hstuck] at hr
      cases hr
    have hlt := laid.built.wellFormed.run_lt laid.pos hs
    have hlast : partly.numStates + 1 = d.numStates := by
      rcases laid.numStates_cases with h | h <;> omega
    rw [hempty, Dfa.isAccepting_eq_false_of_le le_rfl]
    exact ⟨.inr ⟨rfl, hlast, rfl⟩, rfl⟩

/-- What a state stands for: active states that were found under its number, or nothing, if it is
the dead state. -/
theorem mapping_cases
    (laid : TransitionSystem.LaidOut nfa.powerset survey nfa.alphabet
      (·.intersects nfa.accepting) partly d)
    (keyed : TransitionSystem.Keyed nfa.powerset survey partly d mapping) {s : Nat}
    {list : List Nat} (h : mapping[s]? = some list) :
    (list ≠ [] ∧ ∃ active, survey.found[s]? = some active ∧ list = active.toList) ∨
      (list = [] ∧ s = partly.numStates ∧ s + 1 = d.numStates) := by
  rcases (keyed s list).1 h with ⟨active, hactive, rfl⟩ | ⟨hs, hlast, rfl⟩
  · obtain ⟨t, ht⟩ := exists_mem_of_reachable (laid.done.reachable s active hactive)
    exact .inl ⟨List.ne_nil_of_mem (Std.ExtTreeSet.mem_toList.2 ht), active, hactive, rfl⟩
  · exact .inr ⟨rfl, hs, hlast⟩

/-- **The powerset laid out keeps track of the active states.**  The mapping is that of the keys,
so what a state stands for is a sorted list. -/
theorem tracks_of_laidOut (wf : nfa.WellFormed)
    (laid : TransitionSystem.LaidOut nfa.powerset survey nfa.alphabet
      (·.intersects nfa.accepting) partly d) : ∃ mapping, nfa.Tracks d mapping := by
  obtain ⟨mapping, heq, keyed⟩ := laid.mapping_eq
  refine ⟨mapping, heq, laid.lt_iff keyed, fun w hw => exists_run_of_laidOut wf laid keyed hw,
    ?_, ?_, ?_⟩
  · intro s t list hs ht
    rcases mapping_cases laid keyed hs with ⟨hne, active, hactive, hlist⟩ | ⟨hnil, hs, -⟩
    · rcases mapping_cases laid keyed ht with ⟨-, active', hactive', hlist'⟩ | ⟨hnil, -, -⟩
      · rw [nfa.powerset_key_injective (hlist.symm.trans hlist')] at hactive
        exact laid.done.filed.unique hactive hactive'
      · exact absurd hnil hne
    · rcases mapping_cases laid keyed ht with ⟨hne, -⟩ | ⟨-, ht, -⟩
      · exact absurd hnil hne
      · rw [hs, ht]
  · intro s t hst hne w hw
    refine laid.breadthFirst hst ?_ hw
    intro ht
    obtain ⟨list, hlist⟩ := (laid.lt_iff keyed t).1 (laid.built.wellFormed.run_lt laid.pos hw)
    rcases mapping_cases laid keyed hlist with ⟨-, active, hactive, -⟩ | ⟨hnil, -⟩
    · have := (Array.getElem?_eq_some_iff.1 hactive).1
      have := laid.chart.numStates_eq
      omega
    · exact hne (hnil ▸ hlist)
  · intro s hs
    rcases mapping_cases laid keyed hs with ⟨hne, -⟩ | ⟨-, -, hlast⟩
    · exact absurd rfl hne
    · exact hlast

end

/-! ### The deterministic automaton -/

/-- The deterministic automaton is the powerset laid out. -/
theorem determinize_cases (nfa : Nfa) (limit : Nat) :
    (∃ d survey partly, nfa.determinize limit = .ok d ∧
      TransitionSystem.LaidOut nfa.powerset survey nfa.alphabet
        (·.intersects nfa.accepting) partly d ∧ d.numStates ≤ limit) ∨
    (nfa.determinize limit = .error (.stateLimitExceeded (limit + 1) limit) ∧
      nfa.powerset.Overflows nfa.alphabet limit) :=
  TransitionSystem.determinize_cases nfa.powerset_key_injective nfa.powerset_ascending _ limit

/-- **The construction succeeds or meets the ceiling**, and it needs one state more than the
ceiling allows when it stops.  Edges have to stay within the automaton and carry symbols of its
alphabet, which holds of every automaton that can be obtained. -/
theorem determinize_spec (wf : nfa.WellFormed) (limit : Nat) :
    (∃ d, nfa.determinize limit = .ok d ∧ nfa.Determinizes d) ∨
      nfa.determinize limit = .error (.stateLimitExceeded (limit + 1) limit) := by
  rcases nfa.determinize_cases limit with ⟨d, survey, partly, hok, laid, -⟩ | ⟨herror, -⟩
  · refine .inl ⟨d, hok, ⟨laid.built, laid.pos, laid.start_eq, laid.total, laid.accessible,
      laid.alphabet_eq, ?_⟩⟩
    intro w
    exact (laid.accepts_eq w).trans
      (laid.chart.accepts_eq laid.done (powerset_follows wf) w)
  · exact .inr herror

theorem determinizes_of_determinize (wf : nfa.WellFormed) {limit : Nat} {d : Dfa}
    (h : nfa.determinize limit = .ok d) : nfa.Determinizes d := by
  rcases determinize_spec wf limit with ⟨d', hok, det⟩ | herror
  · rw [h] at hok
    cases hok
    exact det
  · rw [h] at herror
    cases herror

/-- The deterministic automaton stays within the ceiling. -/
theorem numStates_le_of_determinize {limit : Nat} {d : Dfa} (h : nfa.determinize limit = .ok d) :
    d.numStates ≤ limit := by
  rcases nfa.determinize_cases limit with ⟨d', survey, partly, hok, -, hle⟩ | ⟨herror, -⟩
  · rw [h] at hok
    cases hok
    exact hle
  · rw [h] at herror
    cases herror

/-- **The deterministic automaton keeps track of the active states.** -/
theorem tracks_of_determinize (wf : nfa.WellFormed) {limit : Nat} {d : Dfa}
    (h : nfa.determinize limit = .ok d) : ∃ mapping, nfa.Tracks d mapping := by
  rcases nfa.determinize_cases limit with ⟨d', survey, partly, hok, laid, -⟩ | ⟨herror, -⟩
  · rw [h] at hok
    cases hok
    exact tracks_of_laidOut wf laid
  · rw [h] at herror
    cases herror

/-! ### Stored sets -/

/-- The powerset with stored sets represents the powerset with plain sets: a stored set stands for
the set of the states that it contains. -/
theorem powersetIn_represents (S : Type) [StateStore S] [LawfulStateStore S] (nfa : Nfa) :
    (nfa.powersetIn S).Represents StateStore.elements nfa.powerset where
  start_eq := nfa.elements_initialIn
  edges_eq active := by
    show (nfa.alphabet.toList.filterMap _).map _ = nfa.alphabet.toList.filterMap _
    rw [List.map_filterMap]
    congr 1
    funext c
    simp only [StateStore.isEmpty_eq, elements_advanceIn]
    by_cases hempty : (nfa.advance (StateStore.elements active) c).isEmpty = true
    · simp [hempty]
    · simp [hempty, elements_advanceIn]
  key_eq := StateStore.toList_eq

/-- The automaton is the same, whatever store the active states are held in. -/
theorem determinizeIn_eq (S : Type) [StateStore S] [LawfulStateStore S] (nfa : Nfa) (limit : Nat) :
    nfa.determinizeIn S limit = nfa.determinize limit :=
  (nfa.powersetIn_represents S).determinize_eq nfa.acceptingIn_eq nfa.alphabet limit

end Nfa

/-- **The automaton is the same with the sets of every strategy**, refusals included. -/
theorem Strategy.determinize_eq (strategy : Strategy) (nfa : Nfa) (limit : Nat) :
    strategy.determinize nfa limit = nfa.determinize limit :=
  nfa.determinizeIn_eq strategy.Store limit

theorem Strategy.determinizes_of_determinize {strategy : Strategy} {nfa : Nfa} (wf : nfa.WellFormed)
    {limit : Nat} {d : Dfa} (h : strategy.determinize nfa limit = .ok d) : nfa.Determinizes d :=
  Nfa.determinizes_of_determinize wf ((strategy.determinize_eq nfa limit).symm.trans h)

end PatternAutomata
