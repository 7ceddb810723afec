import PatternAutomata.Proofs.Nfa.Memo
import PatternAutomata.Proofs.Nfa.Obtainable
import PatternAutomata.Proofs.Pattern.Draft

/-!
# Walks along the edges of an automaton

An input is accepted iff one may walk along edges from the start to an accepting state whose
symbols spell it (`Nfa.Obtainable.accepts_iff_exists_walk`).  Here a walk goes along the edges
that the automaton lists, each with its label, and epsilon may be taken any number of times.

## Where the edges are listed

A path asks each state for its targets; a walk goes by the list of all edges.  A row that listed a
symbol twice would show edges that no state follows, so that the two agree for tidy automata only
(`Nfa.Tidy.exists_walk_iff`).  No builder and no operator makes any other (`Nfa.Obtainable.tidy`).
The walk is the more elementary notion: it does not mention how rows are stored, how closures are
found or that all active states are kept together.

## Giving up

The run stops as soon as nothing is active, before the end of the input.  If there were a walk
that spells the input, some state would be active after each beginning of it
(`Nfa.Tidy.spelled_ne_of_isEmpty`).  So the run never gives up an input that some walk spells,
whether or not the walk ends in an accepting state.
-/

namespace PatternAutomata.Nfa

variable {nfa : Nfa} {s t u : Nat}

/-! ### Tidy rows, edge by edge -/

namespace Row

variable {moves : List (Char × StateSet)} {c : Char}

/-- A symbol that is given a target is listed, and no other becomes so. -/
theorem mem_map_fst_insertMove {d : Char} (h : d ∈ (insertMove c t moves).map (·.1)) :
    d = c ∨ d ∈ moves.map (·.1) := by
  induction moves with
  | nil => exact .inl (List.mem_singleton.1 h)
  | cons m moves ih =>
      obtain ⟨b, targets⟩ := m
      rw [insertMove] at h
      split at h
      · exact .inr h
      · rw [List.map_cons, List.mem_cons] at h ⊢
        rcases h with h | h
        · exact .inr (.inl h)
        · exact (ih h).imp_right .inr

theorem nodup_insertMove (h : (moves.map (·.1)).Nodup) :
    ((insertMove c t moves).map (·.1)).Nodup := by
  induction moves with
  | nil => exact List.nodup_singleton c
  | cons m moves ih =>
      obtain ⟨b, targets⟩ := m
      rw [insertMove]
      split
      · exact h
      case isFalse hne =>
        rw [List.map_cons, List.nodup_cons] at h ⊢
        exact ⟨fun hb => (mem_map_fst_insertMove hb).elim hne h.1, ih h.2⟩

theorem nonempty_insertMove (h : ∀ m ∈ moves, ∃ s, s ∈ m.2) :
    ∀ m ∈ insertMove c t moves, ∃ s, s ∈ m.2 := by
  induction moves with
  | nil =>
      intro m hm
      rw [List.mem_singleton.1 hm]
      exact ⟨t, StateSet.mem_singleton.2 rfl⟩
  | cons m moves ih =>
      obtain ⟨b, targets⟩ := m
      have rest := fun m hm => h m (List.mem_cons_of_mem _ hm)
      intro m hm
      rw [insertMove] at hm
      split at hm
      · rcases List.mem_cons.1 hm with rfl | hm
        · exact ⟨t, Std.ExtTreeSet.mem_insert_self⟩
        · exact rest m hm
      · rcases List.mem_cons.1 hm with rfl | hm
        · exact h _ List.mem_cons_self
        · exact ih rest m hm

/-- An edge more leaves a row tidy, as it is entered with its symbol if this is listed already. -/
theorem Tidy.addEdge {row : Row} (tidy : row.Tidy) (label : Label) (target : Nat) :
    (row.addEdge label target).Tidy := by
  cases label with
  | epsilon => exact tidy.of_moves_eq rfl
  | symbol c => exact ⟨nodup_insertMove tidy.distinct, nonempty_insertMove tidy.nonempty⟩

end Row

/-- No step of a builder makes rows untidy, in whatever order edges are added. -/
theorem Builder.Reached.tidy {strategy : Strategy} {b : Builder} (h : b.Reached strategy) :
    ∀ row ∈ b.rows, row.Tidy := by
  induction h with
  | empty => exact fun row hrow => nomatch hrow
  | addState _ hstep ih =>
      obtain rfl := Error.eq_of_check hstep
      intro row hrow
      rcases Array.mem_push.1 hrow with hrow | rfl
      · exact ih row hrow
      · exact .empty
  | addEdge _ hstep ih =>
      obtain ⟨_, -, hstep⟩ := Error.bind_eq_ok_iff.1 hstep
      obtain rfl := Error.eq_of_check hstep
      intro row hrow
      obtain ⟨i, hi, rfl⟩ := Array.mem_iff_getElem.1 hrow
      rw [Array.getElem_modify]
      split
      · exact (ih _ (Array.getElem_mem _)).addEdge ..
      · exact ih _ (Array.getElem_mem _)
  | setStart _ hstep ih =>
      obtain rfl := Error.eq_of_check hstep
      exact ih
  | addAccepting _ hstep ih =>
      obtain rfl := Error.eq_of_check hstep
      exact ih

theorem Builder.Reached.tidy_of_build {strategy : Strategy} {b : Builder}
    (reached : b.Reached strategy) (h : b.build = .ok nfa) : nfa.Tidy := by
  unfold Builder.build at h
  cases hstart : b.start with
  | none =>
      rw [hstart] at h
      cases h
  | some start =>
      rw [hstart] at h
      cases h
      exact reached.tidy

/-- **Every automaton that can be obtained is tidy**, whichever way it was obtained. -/
theorem Obtainable.tidy {strategy : Strategy} (h : Obtainable strategy nfa) : nfa.Tidy := by
  induction h with
  | build reached hbuild => exact reached.tidy_of_build hbuild
  | oneOf _ symbols => exact .oneOf symbols
  | epsilon => exact .epsilon
  | empty => exact .epsilon
  | union _ _ hok iha ihb =>
      obtain rfl := Error.eq_of_check hok
      exact iha.union ihb
  | concat _ _ hok iha ihb =>
      obtain rfl := Error.eq_of_check hok
      exact iha.concat ihb
  | star _ hok ih =>
      obtain rfl := Error.eq_of_check hok
      exact ih.star
  | plus _ hok ih =>
      obtain rfl := Error.eq_of_check hok
      exact ih.plus
  | optional _ hok ih =>
      obtain rfl := Error.eq_of_check hok
      exact ih.optional
  | @ofDfa _ d _ _ _ hok =>
      obtain rfl := Error.eq_of_check hok
      exact Stepwise.tidy_toNfa d
  | adopt _ hok ih =>
      obtain rfl := Error.eq_of_check hok
      exact ih
  | ofPattern config pattern hok =>
      obtain ⟨regex, -, rfl⟩ := exists_regex hok
      exact regex.tidy_toNfa
  | minimize limit obtained hok _ =>
      obtain ⟨m, rfl, -⟩ := exists_minimal obtained.wellFormed hok
      exact Stepwise.tidy_toNfa m

/-! ### Listed edges -/

/-- **The listed edges are those that lead somewhere**, under the label that they are listed
with. -/
theorem Tidy.mem_edges (tidy : nfa.Tidy) {label : Label} :
    (s, label, t) ∈ nfa.edges ↔ Leads nfa.rows s label t :=
  ⟨fun h => tidy.leads h, mem_edges_of_leads⟩

/-! ### Walks -/

/-- A walk along listed edges, with the labels that are met on it, epsilon among them. -/
inductive Walk (nfa : Nfa) : Nat → List Label → Nat → Prop where
  | nil (s : Nat) : Walk nfa s [] s
  | cons {s t u : Nat} {label : Label} {labels : List Label} :
      (s, label, t) ∈ nfa.edges → Walk nfa t labels u → Walk nfa s (label :: labels) u

/-- What labels spell: their symbols, without epsilon. -/
def spelled (labels : List Label) : List Char :=
  labels.filterMap Label.symbol?

@[simp] theorem spelled_nil : spelled [] = [] := rfl

@[simp] theorem spelled_epsilon (labels : List Label) :
    spelled (.epsilon :: labels) = spelled labels := rfl

@[simp] theorem spelled_symbol (c : Char) (labels : List Label) :
    spelled (.symbol c :: labels) = c :: spelled labels := rfl

theorem Tidy.path_of_walk (tidy : nfa.Tidy) {labels : List Label} (walk : nfa.Walk s labels t) :
    nfa.Path s (spelled labels) t := by
  induction walk with
  | nil s => exact .nil s
  | @cons s r t label labels edge _ ih =>
      rw [tidy.mem_edges] at edge
      cases label with
      | epsilon =>
          rw [spelled_epsilon]
          exact .silent (mem_silent.2 edge) ih
      | symbol c =>
          rw [spelled_symbol]
          exact .symbol (mem_on.2 edge) ih

theorem Path.exists_walk {w : List Char} (path : nfa.Path s w t) :
    ∃ labels, nfa.Walk s labels t ∧ spelled labels = w := by
  induction path with
  | nil s => exact ⟨[], .nil s, spelled_nil⟩
  | silent edge _ ih =>
      obtain ⟨labels, walk, rfl⟩ := ih
      exact ⟨.epsilon :: labels, .cons (mem_edges_of_leads (mem_silent.1 edge)) walk,
        spelled_epsilon labels⟩
  | @symbol _ _ _ c _ edge _ ih =>
      obtain ⟨labels, walk, rfl⟩ := ih
      exact ⟨.symbol c :: labels, .cons (mem_edges_of_leads (mem_on.1 edge)) walk,
        spelled_symbol c labels⟩

/-- **The words of paths are what walks spell.**  Many walks may spell one word, since epsilon may
be taken in different places. -/
theorem Tidy.exists_walk_iff (tidy : nfa.Tidy) {w : List Char} :
    (∃ labels, nfa.Walk s labels t ∧ spelled labels = w) ↔ nfa.Path s w t := by
  constructor
  · rintro ⟨labels, walk, rfl⟩
    exact tidy.path_of_walk walk
  · exact Path.exists_walk

/-! ### Acceptance -/

/-- Where nothing is active after a word, no walk spells a word that begins with it. -/
theorem Tidy.spelled_ne_of_isEmpty (tidy : nfa.Tidy) {S : Type} [StateStore S] [LawfulStateStore S]
    {v w : List Char} {labels : List Label}
    (dead : StateStore.isEmpty (v.foldl nfa.advanceIn (nfa.initialIn S)) = true)
    (walk : nfa.Walk nfa.start labels t) : spelled labels ≠ v ++ w := by
  rw [StateStore.isEmpty_eq, elements_foldl_advanceIn, Std.ExtTreeSet.isEmpty_iff] at dead
  intro hspelled
  obtain ⟨r, before, -⟩ := (hspelled ▸ tidy.path_of_walk walk).exists_of_append
  have active : r ∈ nfa.active v := mem_active.2 before
  rw [Nfa.active, dead] at active
  exact Std.ExtTreeSet.not_mem_empty active

/-- **An input is accepted iff one may walk along edges from the start to an accepting state whose
symbols spell it.**  What the automaton remembers from before, and the orders in which sets are
gone through, make no difference to that.  The run that stops as soon as nothing is active stops
only where no walk spells the input, to an accepting state or to any other. -/
theorem Obtainable.accepts_iff_exists_walk {strategy : Strategy}
    (obtained : Obtainable strategy nfa) (w : List Char) :
    (strategy.accepts nfa w = true ↔
      ∃ labels, ∃ t ∈ nfa.accepting, nfa.Walk nfa.start labels t ∧ spelled labels = w) ∧
    (∀ (before : Nfa) (requests : List (Live.Request strategy)) (orders : Nat → Arrangement),
      ((Live.fresh strategy before).after requests).nfa = nfa →
      (((Live.fresh strategy before).after requests).accepts orders w).1 =
        strategy.accepts nfa w) ∧
    ∀ u v, u ++ v = w →
      StateStore.isEmpty (u.foldl nfa.advanceIn (nfa.initialIn strategy.Store)) = true →
      ∀ labels t, nfa.Walk nfa.start labels t → spelled labels ≠ w := by
  have tidy := obtained.tidy
  refine ⟨?_, fun before requests orders same => ?_, ?_⟩
  · rw [strategy.accepts_eq, accepts_iff, exists_comm]
    refine exists_congr fun t => ?_
    rw [← tidy.exists_walk_iff, exists_and_left]
  · rw [((Live.Faithful.fresh strategy before).after requests).accepts_eq, same]
  · rintro u v rfl dead labels t walk
    exact tidy.spelled_ne_of_isEmpty dead walk

/-- A loop within a loop, so that epsilon leads round in a circle.  A run that followed it without
remembering where it was would not end. -/
theorem accepts_iff_exists_walk_of_star :
    ∃ nfa, Obtainable .bit nfa ∧ Strategy.bit.accepts nfa ['a', 'a'] = true ∧
      (∃ labels, ∃ t ∈ nfa.accepting, nfa.Walk nfa.start labels t ∧ spelled labels = ['a', 'a']) ∧
      ∀ labels t, nfa.Walk nfa.start labels t → spelled labels ≠ ['a', 'b', 'a'] := by
  have obtained : Obtainable .bit (Nfa.oneOf ['a']).star.star :=
    .star (.star (.oneOf .bit ['a']) rfl) (by cbv)
  have accepted : Strategy.bit.accepts (Nfa.oneOf ['a']).star.star ['a', 'a'] = true := by cbv
  refine ⟨_, obtained, accepted, (obtained.accepts_iff_exists_walk _).1.1 accepted, ?_⟩
  exact (obtained.accepts_iff_exists_walk ['a', 'b', 'a']).2.2 ['a', 'b'] ['a'] rfl (by cbv)

end PatternAutomata.Nfa
