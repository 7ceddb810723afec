import PatternAutomata.Proofs.Nfa.Obtainable

/-!
# The sets of active states

How many states the powerset construction needs can be told from the nondeterministic automaton
alone: one for every nonempty set of states that are active after some word, and one more if some
word leaves nothing active.  `Nfa.determinize_ceiling` says that the ceiling is exact with respect
to this number.

## States and points

States are counted in the automaton that comes out, points in the survey that does not end.  If
the construction succeeds, its states stand for different lists, and these are the sets of active
states and perhaps the empty list (`Nfa.Tracks.numStates_eq`).  If it fails, the points found so
far are sets of active states, and there are already too many of them, or as many as allowed and a
dead state to come (`Nfa.lt_powersetStates`).

## Counting without a construction

The number is defined by the cardinality of a set of lists, not by running anything.  That set is
finite as there are finitely many states (`Nfa.finite_activeSets`); this is part of the theorem,
since the cardinality of an infinite set would be zero and the bound would say nothing.
-/

namespace PatternAutomata

namespace Strategy

variable (strategy : Strategy) (nfa : Nfa)

/-- The states that are active after a word, in ascending order, as a strategy computes them with
its own sets. -/
def activeAfter (w : List Char) : List Nat :=
  StateStore.toList (w.foldl nfa.advanceIn (nfa.initialIn strategy.Store))

/-- The nonempty sets of states that are active after some word over the alphabet, each as a list
in ascending order.  Two words that leave the same states active count once. -/
def activeSets : Set (List Nat) :=
  {list | list ≠ [] ∧ ∃ w, (∀ c ∈ w, c ∈ nfa.alphabet) ∧ strategy.activeAfter nfa w = list}

/-- Some states are active after a word, and after one more symbol there are none.  Then an edge
is missing where one state of the result ends, and a dead state is needed for it. -/
def Sticks : Prop :=
  ∃ w, (∀ c ∈ w, c ∈ nfa.alphabet) ∧ strategy.activeAfter nfa w ≠ [] ∧
    ∃ c ∈ nfa.alphabet, strategy.activeAfter nfa (w ++ [c]) = []

open Classical in
/-- How many states the powerset construction needs: one for each nonempty set of active states,
and a dead state if some symbol leaves nothing active. -/
noncomputable def powersetStates : Nat :=
  (strategy.activeSets nfa).ncard + if strategy.Sticks nfa then 1 else 0

theorem activeAfter_eq (w : List Char) :
    strategy.activeAfter nfa w = (nfa.active w).toList := by
  rw [activeAfter, StateStore.toList_eq, Nfa.elements_foldl_advanceIn]
  rfl

theorem activeAfter_sorted (w : List Char) :
    (strategy.activeAfter nfa w).Pairwise (· < ·) := by
  rw [activeAfter_eq]
  exact (nfa.active w).ordered_toList.imp Nat.compare_eq_lt.1

theorem mem_activeAfter {w : List Char} {s : Nat} :
    s ∈ strategy.activeAfter nfa w ↔ nfa.Path nfa.start w s := by
  rw [activeAfter_eq, Std.ExtTreeSet.mem_toList, Nfa.mem_active]

/-- Before anything is read the start is active, so a word that leaves nothing active is not
empty. -/
theorem activeAfter_nil_ne : strategy.activeAfter nfa [] ≠ [] :=
  List.ne_nil_of_mem ((strategy.mem_activeAfter nfa).2 (.nil nfa.start))

/-- **A word that leaves nothing active has a symbol that does**, the last one of its shortest
beginning after which nothing is active. -/
theorem sticks_iff : strategy.Sticks nfa ↔
    ∃ w, (∀ c ∈ w, c ∈ nfa.alphabet) ∧ strategy.activeAfter nfa w = [] := by
  constructor
  · rintro ⟨w, hw, -, c, hc, hempty⟩
    refine ⟨w ++ [c], fun b hb => ?_, hempty⟩
    rcases List.mem_append.1 hb with hb | hb
    · exact hw b hb
    · rwa [List.mem_singleton.1 hb]
  · rintro ⟨w, hw, hempty⟩
    -- the last symbol of the shortest beginning after which nothing is active
    induction w using List.reverseRecOn with
    | nil => exact absurd hempty (strategy.activeAfter_nil_ne nfa)
    | append_singleton w c ih =>
        have hbefore : ∀ b ∈ w, b ∈ nfa.alphabet := fun b hb => hw b (List.mem_append_left _ hb)
        by_cases hstuck : strategy.activeAfter nfa w = []
        · exact ih hbefore hstuck
        · exact ⟨w, hbefore, hstuck, c, hw c (by simp), hempty⟩

end Strategy

namespace Nfa

variable {strategy : Strategy} {nfa : Nfa}

/-! ### How many sets there are -/

/-- **There are finitely many sets of active states**, because they are sets of states.  Without
this the number of them would mean nothing. -/
theorem finite_activeSets (wf : nfa.WellFormed) (strategy : Strategy) :
    (strategy.activeSets nfa).Finite := by
  apply (List.range nfa.numStates).sublists.finite_toSet.subset
  rintro _ ⟨-, w, -, rfl⟩
  have sorted := strategy.activeAfter_sorted nfa w
  have sub : strategy.activeAfter nfa w ⊆ List.range nfa.numStates := by
    intro s hs
    rw [Strategy.mem_activeAfter] at hs
    exact List.mem_range.2 (wf.path_lt hs wf.start_lt)
  show _ ∈ (List.range nfa.numStates).sublists
  rw [List.mem_sublists]
  have nodup : (strategy.activeAfter nfa w).Nodup := sorted.imp Nat.ne_of_lt
  exact List.sublist_of_subperm_of_pairwise (nodup.subperm sub) sorted List.pairwise_lt_range

/-- A point of the powerset is what is active after some word, which is spelled by the edges on
the way. -/
theorem exists_active_of_reachable {active : StateSet} (h : nfa.powerset.Reachable active) :
    ∃ w, (∀ c ∈ w, c ∈ nfa.alphabet) ∧ active = nfa.active w := by
  induction h with
  | refl => exact ⟨[], nofun, rfl⟩
  | tail _ edge ih =>
      obtain ⟨w, hw, rfl⟩ := ih
      obtain ⟨c, he⟩ := edge
      obtain ⟨hc, rfl, -⟩ := mem_powerset_edges.1 he
      refine ⟨w ++ [c], fun b hb => ?_, (nfa.active_concat w c).symm⟩
      rcases List.mem_append.1 hb with hb | hb
      · exact hw b hb
      · rwa [List.mem_singleton.1 hb]

theorem toList_mem_activeSets (strategy : Strategy) {active : StateSet}
    (h : nfa.powerset.Reachable active) : active.toList ∈ strategy.activeSets nfa := by
  obtain ⟨t, ht⟩ := exists_mem_of_reachable h
  obtain ⟨w, hw, rfl⟩ := exists_active_of_reachable h
  exact ⟨List.ne_nil_of_mem (Std.ExtTreeSet.mem_toList.2 ht), w, hw, strategy.activeAfter_eq nfa w⟩

/-- Points that can be met are sets of active states, and different points are different sets. -/
theorem lt_ncard_of_crowded (wf : nfa.WellFormed) (strategy : Strategy) {n : Nat}
    (crowded : nfa.powerset.Crowded n) : n < (strategy.activeSets nfa).ncard := by
  obtain ⟨points, nodup, hmany, hpoints⟩ := crowded
  have hlists : (points.map Std.ExtTreeSet.toList).Nodup := nodup.map nfa.powerset_key_injective
  calc n < points.length := hmany
    _ = (points.map Std.ExtTreeSet.toList).toFinset.card := by
      rw [List.toFinset_card_of_nodup hlists, List.length_map]
    _ = ((points.map Std.ExtTreeSet.toList).toFinset : Set (List Nat)).ncard :=
      (Set.ncard_coe_finset _).symm
    _ ≤ (strategy.activeSets nfa).ncard := by
      apply Set.ncard_le_ncard _ (finite_activeSets wf strategy)
      intro list hlist
      rw [List.coe_toFinset, Set.mem_ofPred_eq, List.mem_map] at hlist
      obtain ⟨p, hp, rfl⟩ := hlist
      exact toList_mem_activeSets strategy (hpoints p hp)

/-- A point without an edge under a symbol is left with nothing active. -/
theorem sticks_of_stuck (strategy : Strategy) {active : StateSet} {c : Char}
    (h : nfa.powerset.Reachable active) (hc : c ∈ nfa.alphabet)
    (stuck : ∀ next, (c, next) ∉ nfa.powerset.edges active) : strategy.Sticks nfa := by
  obtain ⟨hne, -⟩ := toList_mem_activeSets strategy h
  obtain ⟨w, hw, rfl⟩ := exists_active_of_reachable h
  refine ⟨w, hw, ?_, c, hc, ?_⟩
  · rwa [Strategy.activeAfter_eq]
  · rw [Strategy.activeAfter_eq, active_concat, List.eq_nil_iff_forall_not_mem]
    intro s hs
    refine stuck _ (mem_powerset_edges.2 ⟨hc, rfl, StateSet.isEmpty_eq_false_iff.2 ⟨s, ?_⟩⟩)
    exact Std.ExtTreeSet.mem_toList.1 hs

/-- **A powerset that meets the ceiling needs more states than it allows**, whichever of the two
reasons it has. -/
theorem lt_powersetStates (wf : nfa.WellFormed) (strategy : Strategy) {limit : Nat}
    (h : nfa.powerset.Overflows nfa.alphabet limit) : limit < strategy.powersetStates nfa := by
  rw [Strategy.powersetStates]
  rcases h with crowded | ⟨full, p, hp, c, hc, stuck⟩
  · exact (lt_ncard_of_crowded wf strategy crowded).trans_le (Nat.le_add_right _ _)
  · rw [if_pos (sticks_of_stuck strategy hp hc stuck), Nat.lt_succ_iff]
    by_contra hlt
    exact absurd (lt_ncard_of_crowded wf strategy (full _ (Nat.lt_of_not_le hlt))) (Nat.lt_irrefl _)

/-! ### How many states there are -/

/-- The states of an automaton that keeps track of the active states stand for the nonempty sets
of them, and for the empty one if some word leaves nothing active. -/
theorem Tracks.image_eq {d : Dfa} {mapping : Std.ExtTreeMap Nat (List Nat)}
    (tracks : nfa.Tracks d mapping) (det : nfa.Determinizes d) (strategy : Strategy) :
    (fun s => mapping[s]?.getD []) '' Set.Iio d.numStates =
      {list | ∃ w, (∀ c ∈ w, c ∈ nfa.alphabet) ∧ strategy.activeAfter nfa w = list} := by
  ext list
  constructor
  · rintro ⟨s, hs, rfl⟩
    obtain ⟨w, hw⟩ := det.accessible s hs
    have hword := det.built.wellFormed.overAlphabet_of_runFrom hw
    obtain ⟨t, ht, hlist, -⟩ := tracks.exists_run w hword
    rw [hw, Option.some.injEq] at ht
    subst ht
    refine ⟨w, det.alphabet_eq ▸ hword, ?_⟩
    show _ = mapping[s]?.getD []
    rw [hlist, Strategy.activeAfter_eq, Option.getD_some]
  · rintro ⟨w, hw, rfl⟩
    obtain ⟨s, hs, hlist, -⟩ := tracks.exists_run w (by rwa [Dfa.OverAlphabet, det.alphabet_eq])
    refine ⟨s, det.built.wellFormed.run_lt det.pos hs, ?_⟩
    show mapping[s]?.getD [] = _
    rw [hlist, Strategy.activeAfter_eq, Option.getD_some]

/-- What is active after some word is one of the nonempty sets, or nothing if some symbol leaves
nothing active. -/
theorem ncard_active (wf : nfa.WellFormed) (strategy : Strategy) :
    {list | ∃ w, (∀ c ∈ w, c ∈ nfa.alphabet) ∧ strategy.activeAfter nfa w = list}.ncard =
      strategy.powersetStates nfa := by
  rw [Strategy.powersetStates]
  by_cases sticks : strategy.Sticks nfa
  · have hnot : [] ∉ strategy.activeSets nfa := fun h => h.1 rfl
    rw [if_pos sticks, ← Set.ncard_insert_of_notMem hnot (finite_activeSets wf strategy)]
    congr 1
    ext list
    rw [Set.mem_insert_iff]
    constructor
    · rintro ⟨w, hw, rfl⟩
      by_cases hempty : strategy.activeAfter nfa w = []
      · exact .inl hempty
      · exact .inr ⟨hempty, w, hw, rfl⟩
    · rintro (rfl | ⟨-, h⟩)
      · exact (strategy.sticks_iff nfa).1 sticks
      · exact h
  · rw [if_neg sticks, Nat.add_zero]
    congr 1
    ext list
    constructor
    · rintro ⟨w, hw, rfl⟩
      exact ⟨fun hempty => sticks ((strategy.sticks_iff nfa).2 ⟨w, hw, hempty⟩), w, hw, rfl⟩
    · exact fun h => h.2

/-- **An automaton that keeps track of the active states has as many states as needed.**
Different states stand for different lists, so counting the lists is counting the states. -/
theorem Tracks.numStates_eq {d : Dfa} {mapping : Std.ExtTreeMap Nat (List Nat)}
    (tracks : nfa.Tracks d mapping) (det : nfa.Determinizes d) (wf : nfa.WellFormed)
    (strategy : Strategy) : d.numStates = strategy.powersetStates nfa := by
  have injOn : Set.InjOn (fun s => mapping[s]?.getD []) (Set.Iio d.numStates) := by
    intro s hs t ht heq
    obtain ⟨list, hlist⟩ := (tracks.lt_iff s).1 hs
    obtain ⟨list', hlist'⟩ := (tracks.lt_iff t).1 ht
    simp only [hlist, hlist', Option.getD_some] at heq
    exact tracks.injective s t list hlist (heq ▸ hlist')
  have hcount : (Set.Iio d.numStates).ncard = d.numStates := by
    rw [← Finset.coe_Iio, Set.ncard_coe_finset, Nat.card_Iio]
  calc d.numStates = (Set.Iio d.numStates).ncard := hcount.symm
    _ = ((fun s => mapping[s]?.getD []) '' Set.Iio d.numStates).ncard := injOn.ncard_image.symm
    _ = strategy.powersetStates nfa := by rw [tracks.image_eq det strategy, ncard_active wf]

/-! ### The ceiling -/

/-- **The ceiling is exact.**  There are finitely many sets of active states, and the powerset
construction succeeds iff the ceiling allows a state for each of them that is not empty, and one
more if some symbol leaves nothing active.  Then the automaton has just these states.  Otherwise
the construction reports one state more than the ceiling allows, not the number that would be
needed, as it stops when it meets the ceiling. -/
theorem determinize_ceiling (obtained : Obtainable strategy nfa) (limit : Nat) :
    (strategy.activeSets nfa).Finite ∧
    ((∃ d, strategy.determinize nfa limit = .ok d) ↔ strategy.powersetStates nfa ≤ limit) ∧
    (∀ d, strategy.determinize nfa limit = .ok d → d.numStates = strategy.powersetStates nfa) ∧
    (limit < strategy.powersetStates nfa →
      strategy.determinize nfa limit = .error (.stateLimitExceeded (limit + 1) limit)) := by
  have wf := obtained.wellFormed
  have exact_of_ok : ∀ d, nfa.determinize limit = .ok d →
      d.numStates = strategy.powersetStates nfa := by
    intro d hd
    obtain ⟨mapping, tracks⟩ := tracks_of_determinize wf hd
    exact tracks.numStates_eq (determinizes_of_determinize wf hd) wf strategy
  refine ⟨finite_activeSets wf strategy, ?_⟩
  rw [Strategy.determinize_eq]
  rcases nfa.determinize_cases limit with ⟨d, -, -, hd, -, hle⟩ | ⟨herror, overflows⟩
  · have hcount := exact_of_ok d hd
    refine ⟨iff_of_true ⟨d, hd⟩ (hcount.symm.trans_le hle), exact_of_ok, fun hlt => ?_⟩
    exact absurd hle (Nat.not_le.2 (hcount ▸ hlt))
  · have hlt := lt_powersetStates wf strategy overflows
    refine ⟨iff_of_false ?_ (Nat.not_le.2 hlt), exact_of_ok, fun _ => herror⟩
    rintro ⟨d, hd⟩
    rw [herror] at hd
    cases hd

/-- Two letters in a row need three sets of active states, and a dead state after them.  So a
ceiling of four is enough, and one of three is not. -/
theorem determinize_ceiling_of_pair :
    ∃ nfa, Obtainable .bit nfa ∧ (Strategy.bit.activeSets nfa).Finite ∧
      Strategy.bit.powersetStates nfa = 4 ∧ (∃ d, Strategy.bit.determinize nfa 4 = .ok d) ∧
      Strategy.bit.determinize nfa 3 = .error (.stateLimitExceeded 4 3) := by
  have hfour : (do
      let nfa ← Strategy.bit.concat (.oneOf ['a']) (.oneOf ['b'])
      let d ← Strategy.bit.determinize nfa 4
      return d.numStates) = .ok 4 := by cbv
  obtain ⟨nfa, hnfa, hfour⟩ := Error.bind_eq_ok_iff.1 hfour
  obtain ⟨d, hd, hfour⟩ := Error.bind_eq_ok_iff.1 hfour
  have obtained : Obtainable .bit nfa := .concat (.oneOf .bit ['a']) (.oneOf .bit ['b']) hnfa
  obtain ⟨finite, -, exact_of_ok, -⟩ := determinize_ceiling obtained 4
  have hneeded : Strategy.bit.powersetStates nfa = 4 :=
    (exact_of_ok d hd).symm.trans (Except.ok.inj hfour)
  have hlt : 3 < Strategy.bit.powersetStates nfa := hneeded ▸ Nat.lt_succ_self 3
  exact ⟨nfa, obtained, finite, hneeded, ⟨d, hd⟩, (determinize_ceiling obtained 3).2.2.2 hlt⟩

end Nfa

end PatternAutomata
