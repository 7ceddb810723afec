import PatternAutomata.Nfa.Emptiness
import PatternAutomata.Proofs.Dfa.Traversal
import PatternAutomata.Proofs.Nfa.Walks

/-!
# When nothing is accepted

A nondeterministic automaton accepts nothing iff no accepting state is met from its start state.
The deterministic automaton made from it says the same, and so does the minimal one made from that
(`Nfa.Obtainable.isEmpty_agrees`).

## Edges under any label

An accepting state that nothing leads to is no reason to answer that something is accepted, nor is
one that only epsilon leads to a reason not to.  So the search follows edges under every label
(`Nfa.Linked`), and what it meets is compared with walks, whose words are read off afterwards.

## Stopping early

The search stops at the first accepting state it meets.  By then it has not met all that can be
met, and the usual invariant of a search says too little.  It is enough to know as well that
nothing accepting was met before: either the search goes on like that until the queue is empty, or
it stops, and then what it has met is the answer (`Nfa.exists_emptyFrom`).  In which order states
are met makes a difference to when it stops, and to nothing else.
-/

namespace PatternAutomata

namespace Nfa

variable {nfa : Nfa} {s t : Nat}

/-! ### Edges under any label -/

/-- One edge leads from a state to a state, under whatever label. -/
def Linked (nfa : Nfa) (s t : Nat) : Prop :=
  t ∈ nfa.successors s

/-- **The edges that a search follows are the listed ones.**  The rows are not asked to be tidy,
since the search looks through all entries. -/
theorem linked_iff : nfa.Linked s t ↔ ∃ label, (s, label, t) ∈ nfa.edges := by
  simp only [edges_eq, List.mem_append, List.mem_flatMap]
  constructor
  · intro h
    rw [Linked, successors] at h
    cases hrow : nfa.rows[s]? with
    | none =>
        rw [hrow] at h
        exact absurd h List.not_mem_nil
    | some row =>
        rw [hrow] at h
        have listed := mem_numbered_of_getElem? hrow
        rcases List.mem_append.1 h with h | h
        · obtain ⟨move, hmove, ht⟩ := List.mem_flatMap.1 h
          exact ⟨.symbol move.1, .inl ⟨_, listed, move, hmove, List.mem_map.2 ⟨t, ht, rfl⟩⟩⟩
        · exact ⟨.epsilon, .inr ⟨_, listed, List.mem_map.2 ⟨t, h, rfl⟩⟩⟩
  · rintro ⟨label, ⟨p, hp, move, hmove, h⟩ | ⟨p, hp, h⟩⟩
    · obtain ⟨t, ht, heq⟩ := List.mem_map.1 h
      cases heq
      rw [Linked, successors, getElem?_of_mem_numbered hp]
      exact List.mem_append_left _ (List.mem_flatMap.2 ⟨move, hmove, ht⟩)
    · obtain ⟨t, ht, heq⟩ := List.mem_map.1 h
      cases heq
      rw [Linked, successors, getElem?_of_mem_numbered hp]
      exact List.mem_append_right _ ht

/-- States that edges lead to are those that walks end in, where a walk also tells the labels. -/
theorem reflTransGen_linked_iff :
    Relation.ReflTransGen nfa.Linked s t ↔ ∃ labels, nfa.Walk s labels t := by
  constructor
  · intro path
    induction path using Relation.ReflTransGen.head_induction_on with
    | refl => exact ⟨[], .nil t⟩
    | head link _ ih =>
        obtain ⟨label, edge⟩ := linked_iff.1 link
        obtain ⟨labels, walk⟩ := ih
        exact ⟨label :: labels, .cons edge walk⟩
  · rintro ⟨labels, walk⟩
    induction walk with
    | nil s => exact .refl
    | cons edge _ ih => exact .head (linked_iff.2 ⟨_, edge⟩) ih

/-- Edges do not lead out of a well formed automaton, so a search looks nothing up that is not
there. -/
theorem WellFormed.lt_of_linked (wf : nfa.WellFormed) (tidy : nfa.Tidy)
    (path : Relation.ReflTransGen nfa.Linked s t) (hs : s < nfa.numStates) : t < nfa.numStates := by
  obtain ⟨labels, walk⟩ := reflTransGen_linked_iff.1 path
  exact wf.path_lt (tidy.path_of_walk walk) hs

/-! ### The search -/

section

variable {S : Type} [StateStore S] [LawfulStateStore S] {met : S} {queue : List Nat}

theorem contains_hold {states : StateSet} :
    StateStore.contains (hold S states) s = true ↔ s ∈ states := by
  rw [← StateStore.mem_elements, elements_hold]

/-- **A search that stops at the first accepting state tells whether edges lead to one**, and it
does not look anything up that is not there.  The invariant `tracks` is that of any search;
`quiet` says that it has had no reason to stop so far. -/
theorem exists_emptyFrom (order : Arrangement) (number : Nat) (wf : nfa.WellFormed)
    (tidy : nfa.Tidy)
    (tracks : Search.Tracks nfa.Linked [nfa.start] (StateStore.contains met · = true) queue)
    (quiet : ∀ t ∈ nfa.accepting, ¬ StateStore.contains met t = true) :
    ∃ b, emptyFrom order nfa met number queue = .ok b ∧
      (b = true ↔ ∀ t ∈ nfa.accepting, ¬ Relation.ReflTransGen nfa.Linked nfa.start t) := by
  have reached : ∀ {met : S} {s : Nat} {rest : List Nat},
      Search.Tracks nfa.Linked [nfa.start] (StateStore.contains met · = true) (s :: rest) →
        Relation.ReflTransGen nfa.Linked nfa.start s := by
    intro met s rest tracks
    obtain ⟨p, hp, path⟩ := tracks.reached s (.inr List.mem_cons_self)
    exact List.mem_singleton.1 hp ▸ path
  fun_induction emptyFrom order nfa met number queue with
  | case1 met number =>
      refine ⟨true, rfl, iff_of_true rfl fun t ht path => quiet t ht ?_⟩
      exact tracks.iff_of_done.2 ⟨nfa.start, List.mem_singleton_self _, path⟩
  | case2 met number s rest hs ih => exact ih (tracks.skip hs) quiet
  | case3 met number s rest _ hacc =>
      refine ⟨false, rfl, iff_of_false Bool.false_ne_true fun none => ?_⟩
      exact none s (contains_hold.1 hacc) (reached tracks)
  | case4 met number s rest _ _ hrow =>
      -- edges lead to states of the automaton only
      have hs := wf.lt_of_linked tidy (reached tracks) wf.start_lt
      rw [Array.getElem?_eq_getElem hs] at hrow
      cases hrow
  | case5 met number s rest _ hacc row hrow ih =>
      have met_iff : ∀ t, StateStore.contains (StateStore.insert met s) t = true ↔
          t = s ∨ StateStore.contains met t = true := fun t => by
        rw [LawfulStateStore.contains_insert, Bool.or_eq_true, decide_eq_true_eq, eq_comm]
      have linked : ∀ t, (∃ set ∈ row.targetSets, t ∈ set) ↔ nfa.Linked s t := fun t => by
        rw [Linked, ← flatMap_targetSets hrow, List.mem_flatMap]
        simp only [Std.ExtTreeSet.mem_toList]
      refine ih (tracks.take met_iff (fun t => List.mem_append_left _) (fun t ht => ?_)
        fun t ht => ?_) fun t ht hmet => ?_
      · exact (List.mem_append.1 ht).imp_right fun ht => (linked t).1 (mem_fresh.1 ht).1
      · by_cases hmet : StateStore.contains (StateStore.insert met s) t = true
        · exact .inl hmet
        · exact .inr (List.mem_append_right _
            (mem_fresh.2 ⟨(linked t).2 ht, Bool.not_eq_true _ ▸ hmet⟩))
      · rcases (met_iff t).1 hmet with rfl | hmet
        · exact hacc (contains_hold.2 ht)
        · exact quiet t ht hmet

end

/-! ### Words -/

/-- No accepting state is met iff edges lead to none. -/
theorem isEmpty_iff_forall_linked : nfa.isEmpty = true ↔
    ∀ t ∈ nfa.accepting, ¬ Relation.ReflTransGen nfa.Linked nfa.start t := by
  have edge : Search.Edge nfa.numStates nfa.successors = nfa.Linked := by
    funext s t
    rw [Search.Edge, Linked, eq_iff_iff]
    refine and_iff_right_of_imp fun h => Nat.lt_of_not_le fun hle => ?_
    rw [successors, Array.getElem?_eq_none hle] at h
    exact absurd h List.not_mem_nil
  rw [isEmpty, Bool.not_eq_true', ← Bool.not_eq_true, StateSet.intersects_iff, not_exists]
  simp only [Search.mem_reach, edge, List.mem_singleton, exists_eq_left]
  exact forall_congr' fun t => by rw [and_comm, not_and]

/-- **No accepting state is met iff no word is accepted.**  The word is the one that the edges to
the accepting state spell, with epsilon left out. -/
theorem Tidy.isEmpty_iff (tidy : nfa.Tidy) : nfa.isEmpty = true ↔ ∀ w, nfa.accepts w = false := by
  rw [isEmpty_iff_forall_linked]
  simp only [← Bool.not_eq_true, accepts_iff, reflTransGen_linked_iff]
  constructor
  · rintro none w ⟨t, ht, path⟩
    obtain ⟨labels, walk, -⟩ := path.exists_walk
    exact none t ht ⟨labels, walk⟩
  · rintro none t ht ⟨labels, walk⟩
    exact none _ ⟨t, ht, tidy.path_of_walk walk⟩

end Nfa

/-- **With the sets of any strategy, and in any order**, the search finds out the same. -/
theorem Strategy.isEmpty_eq (strategy : Strategy) (order : Arrangement) {nfa : Nfa}
    (wf : nfa.WellFormed) (tidy : nfa.Tidy) : strategy.isEmpty order nfa = .ok nfa.isEmpty := by
  have nothing : ∀ t, ¬ StateStore.contains
      (StateStore.withCapacity nfa.numStates : strategy.Store) t = true := fun t => by
    rw [LawfulStateStore.contains_withCapacity]
    exact Bool.false_ne_true
  obtain ⟨b, hok, hb⟩ := Nfa.exists_emptyFrom order 0 wf tidy
    (.begin nothing) fun t _ => nothing t
  rw [Strategy.isEmpty, hok]
  congr 1
  rw [Bool.eq_iff_iff, hb, Nfa.isEmpty_iff_forall_linked]

namespace Nfa

/-- **All ways to tell whether anything is accepted agree**: the search in the automaton, with the
sets of either strategy and in whatever order, which always comes to an answer; the reachable
states of the deterministic automaton made from it, where one is made; and those of the minimal
automaton made from that.  Each of the three automata accepts nothing iff that is the answer. -/
theorem Obtainable.isEmpty_agrees {strategy : Strategy} (obtained : Obtainable strategy nfa)
    (order : Arrangement) :
    ∃ b, strategy.isEmpty order nfa = .ok b ∧ nfa.isEmpty = b ∧
      (b = true ↔ ∀ w, strategy.accepts nfa w = false) ∧
      ∀ limit d, strategy.determinize nfa limit = .ok d →
        Dfa.Traversal.isEmpty d = b ∧ d.isEmpty = b ∧ (b = true ↔ ∀ w, d.accepts w = false) ∧
        ∃ m, d.minimize = .ok m ∧ Dfa.Traversal.isEmpty m = b ∧ m.isEmpty = b ∧
          (b = true ↔ ∀ w, m.accepts w = false) := by
  have wf := obtained.wellFormed
  have tidy := obtained.tidy
  have words : nfa.isEmpty = true ↔ ∀ w, strategy.accepts nfa w = false := by
    simp only [strategy.accepts_eq, tidy.isEmpty_iff]
  refine ⟨nfa.isEmpty, strategy.isEmpty_eq order wf tidy, rfl, words, fun limit d hok => ?_⟩
  have det := Strategy.determinizes_of_determinize wf hok
  obtain ⟨m, hm, mbuilt, mpos, accepts_eq⟩ := det.built.exists_minimize det.pos
  have dwords : nfa.isEmpty = true ↔ ∀ w, d.accepts w = false := by
    simp only [det.accepts_eq, tidy.isEmpty_iff]
  have mwords : nfa.isEmpty = true ↔ ∀ w, m.accepts w = false := by
    simp only [accepts_eq, dwords]
  have dsame : d.isEmpty = nfa.isEmpty := by
    rw [Bool.eq_iff_iff, Dfa.isEmpty_iff det.pos, dwords]
  have msame : m.isEmpty = nfa.isEmpty := by
    rw [Bool.eq_iff_iff, Dfa.isEmpty_iff mpos, mwords]
  exact ⟨(Dfa.Traversal.isEmpty_eq det.built.wellFormed).trans dsame, dsame, dwords, m, hm,
    (Dfa.Traversal.isEmpty_eq mbuilt.wellFormed).trans msame, msame, mwords⟩

/-- An accepting state behind a symbol, and nothing in front of it that accepts.  It is not met
since the edge in between is missing. -/
theorem isEmpty_agrees_of_cut :
    ∃ nfa d m, Obtainable .bit nfa ∧ nfa.accepting.isEmpty = false ∧
      Strategy.bit.isEmpty Live.backwards nfa = .ok true ∧
      Strategy.bit.determinize nfa 3 = .ok d ∧ d.isEmpty = true ∧
      d.minimize = .ok m ∧ m.isEmpty = true ∧ ∀ w, m.accepts w = false := by
  have obtained : Obtainable .bit (Nfa.empty.concat (.oneOf ['a'])) :=
    .concat (.empty .bit) (.oneOf .bit ['a']) rfl
  obtain ⟨d, hd⟩ : ∃ d, Strategy.bit.determinize (Nfa.empty.concat (.oneOf ['a'])) 3 = .ok d :=
    Error.exists_ok_of_isSome (by cbv)
  obtain ⟨b, hasked, hb, -, agrees⟩ := obtained.isEmpty_agrees Live.backwards
  obtain rfl : b = true := hb.symm.trans (by cbv)
  obtain ⟨-, hempty, -, m, hm, -, hempty', words⟩ := agrees 3 d hd
  exact ⟨_, d, m, obtained, by cbv, hasked, hd, hempty, hm, hempty', words.1 rfl⟩

end Nfa

end PatternAutomata
