import PatternAutomata.Dfa.Traversal
import PatternAutomata.Proofs.Dfa.Editing
import PatternAutomata.Proofs.Dfa.Reachability
import PatternAutomata.Proofs.Minimize.Quotient

/-!
# What going through a deterministic automaton finds

The states met from a queue along the edges are the reachable ones, and those not met from a stack
against the edges are the dead ones.  So the answers do not depend on the order of the search
(`Dfa.Traversal.reachable_eq`, `Dfa.Traversal.dead_eq`, `Dfa.Traversal.isEmpty_eq`), and all of
them can be put in terms of words.

## Two invariants

Along the edges whatever was met has been dealt with, so `Search.Tracks` applies as it stands.
Against the edges a state is met before it is dealt with; it is on the stack until it is.
`Dfa.Traversal.Floods` has this one more possibility: what was met is on the stack, or whatever an
edge leads to it from was met too.  When the stack is empty the two say the same.

## Death and minimization

A state is dead if no word leads from it to an accepting state, whether or not a word leads to it.
Where one word leads in two automata for the same words is dead in both or in neither
(`Dfa.Built.mem_dead_iff_of_accepts_eq`), because what is accepted from there is what the language
has behind the word.  So minimization keeps deadness along words, and no more than that the
language stays the same is needed of it.
-/

namespace PatternAutomata.Dfa

variable {d m : Dfa} {s t : Nat}

namespace Traversal

variable {met : StateSet} {queue stack starts list : List Nat}

/-! ### Along the edges -/

/-- Going on from the queue meets all that edges lead to. -/
theorem tracks_spread
    (tracks : Search.Tracks (fun s t => t ∈ targets d s) starts (· ∈ met) queue) :
    Search.Tracks (fun s t => t ∈ targets d s) starts (· ∈ spread d met queue) [] := by
  fun_induction spread d met queue with
  | case1 met => exact tracks
  | case2 met s rest hs ih => exact ih (tracks.skip hs)
  | case3 met s rest _ ih =>
      refine ih (tracks.take (fun t => ?_) (fun t => List.mem_append_left _) (fun t ht => ?_)
        fun t ht => ?_)
      · rw [Std.ExtTreeSet.mem_insert, Nat.compare_eq_eq, eq_comm]
      · exact (List.mem_append.1 ht).imp_right fun ht => (List.mem_filter.1 ht).1
      · by_cases hmet : t ∈ met.insert s
        · exact .inl hmet
        · refine .inr (List.mem_append_right _ (List.mem_filter.2 ⟨ht, ?_⟩))
          rwa [Bool.not_eq_true', ← Bool.not_eq_true, Std.ExtTreeSet.contains_iff_mem]

theorem mem_spread : t ∈ spread d ∅ starts ↔
    ∃ s ∈ starts, Relation.ReflTransGen (fun s t => t ∈ targets d s) s t :=
  (tracks_spread (.begin fun _ => Std.ExtTreeSet.not_mem_empty)).iff_of_done

theorem mem_targets (wf : d.WellFormed) : t ∈ targets d s ↔ ∃ c, d.transition s c = some t := by
  rw [targets, List.mem_filterMap]
  exact exists_congr fun c =>
    and_iff_right_of_imp fun h => Std.ExtTreeSet.mem_toList.2 (wf.mem_alphabet h)

/-- **The reachable states do not depend on the order** in which they are met.  The loop asks for
edges symbol by symbol, so the automaton has to be well formed. -/
theorem reachable_eq (wf : d.WellFormed) : reachable d = d.reachable := by
  have edge : (fun s t => t ∈ targets d s) = Search.Edge d.numStates d.successors := by
    funext s t
    rw [Search.Edge, mem_successors, mem_targets wf, eq_iff_iff]
    exact (and_iff_right_of_imp fun ⟨_, h⟩ => lt_of_transition_eq_some h).symm
  unfold reachable Dfa.reachable
  split
  · rfl
  · ext t
    rw [mem_spread, Search.mem_reach, edge]

/-! ### Against the edges -/

/-- The states of the list are met. -/
theorem mem_mark {found : StateSet × List Nat} :
    t ∈ (mark list found).1 ↔ t ∈ found.1 ∨ t ∈ list := by
  induction list generalizing found with
  | nil => simp [mark]
  | cons s list ih =>
      rw [mark]
      split
      · rename_i hs
        have known : t ∈ found.1 ∨ t = s ↔ t ∈ found.1 := or_iff_left_of_imp fun h => h ▸ hs
        rw [ih, List.mem_cons, ← or_assoc, known]
      · rw [ih, Std.ExtTreeSet.mem_insert, Nat.compare_eq_eq, List.mem_cons, or_assoc, or_left_comm,
          eq_comm]

/-- **Those that are new come onto the stack**, and nothing else does.  A state that was met is
thus on the stack once in the whole search. -/
theorem mem_stack_mark {found : StateSet × List Nat} :
    t ∈ (mark list found).2 ↔ t ∈ found.2 ∨ t ∈ list ∧ t ∉ found.1 := by
  induction list generalizing found with
  | nil => simp [mark]
  | cons s list ih =>
      rw [mark]
      split
      · rename_i hs
        rw [ih, List.mem_cons]
        refine or_congr_right (and_congr_left fun ht => (or_iff_right ?_).symm)
        rintro rfl
        exact ht hs
      · rename_i hs
        rw [ih, Std.ExtTreeSet.mem_insert, Nat.compare_eq_eq]
        by_cases h : s = t
        · subst h
          simp [hs]
        · simp [h, Ne.symm h]

/-- **What holds at every point of a search against the edges**: edges lead from what was met to
the starting points, which are among it.  Of what was met a state is on the stack, or whatever an
edge leads to it from was met too. -/
structure Floods (d : Dfa) (starts : List Nat) (met : StateSet) (stack : List Nat) : Prop where
  reached : ∀ t ∈ met, ∃ s ∈ starts, Relation.ReflTransGen (fun s t => t ∈ origins d s) s t
  covers : ∀ s ∈ starts, s ∈ met
  stacked : ∀ s ∈ stack, s ∈ met
  settled : ∀ s ∈ met, s ∈ stack ∨ ∀ t ∈ origins d s, t ∈ met

theorem Floods.begin (d : Dfa) (starts : List Nat) :
    Floods d starts (.ofList starts) starts.reverse where
  reached t h := ⟨t, StateSet.mem_ofList.1 h, .refl⟩
  covers _ h := StateSet.mem_ofList.2 h
  stacked _ h := StateSet.mem_ofList.2 (List.mem_reverse.1 h)
  settled _ h := .inl (List.mem_reverse.2 (StateSet.mem_ofList.1 h))

/-- Dealing with the latest of the stack keeps it. -/
theorem Floods.mark (floods : Floods d starts met (s :: stack)) :
    Floods d starts (mark (origins d s) (met, stack)).1 (mark (origins d s) (met, stack)).2 := by
  have here := floods.reached s (floods.stacked s List.mem_cons_self)
  refine ⟨fun t ht => ?_, fun r hr => mem_mark.2 (.inl (floods.covers r hr)), fun r hr => ?_,
    fun r hr => ?_⟩
  · rcases mem_mark.1 ht with ht | ht
    · exact floods.reached t ht
    · obtain ⟨p, hp, path⟩ := here
      exact ⟨p, hp, path.tail ht⟩
  · exact mem_mark.2 ((mem_stack_mark.1 hr).imp
      (fun hr => floods.stacked r (List.mem_cons_of_mem s hr)) And.left)
  · by_cases hmet : r ∈ met
    · rcases floods.settled r hmet with hr | hr
      · rcases List.mem_cons.1 hr with rfl | hr
        · exact .inr fun t ht => mem_mark.2 (.inr ht)
        · exact .inl (mem_stack_mark.2 (.inl hr))
      · exact .inr fun t ht => mem_mark.2 (.inl (hr t ht))
    · exact .inl (mem_stack_mark.2 (.inr ⟨(mem_mark.1 hr).resolve_left hmet, hmet⟩))

theorem floods_flood (floods : Floods d starts met stack) :
    Floods d starts (flood d met stack) [] := by
  fun_induction flood d met stack with
  | case1 met => exact floods
  | case2 met s rest ih => exact ih floods.mark

theorem mem_flood : t ∈ flood d (.ofList starts) starts.reverse ↔
    ∃ s ∈ starts, Relation.ReflTransGen (fun s t => t ∈ origins d s) s t := by
  have floods := floods_flood (.begin d starts)
  have tracks : Search.Tracks (fun s t => t ∈ origins d s) starts
      (· ∈ flood d (.ofList starts) starts.reverse) [] :=
    ⟨fun t h => floods.reached t (h.resolve_right List.not_mem_nil),
      fun s h => .inl (floods.covers s h),
      fun s t h e => .inl ((floods.settled s h).resolve_left List.not_mem_nil t e)⟩
  exact tracks.iff_of_done

theorem mem_origins (built : d.Built) : s ∈ origins d t ↔ ∃ c, d.transition s c = some t := by
  rw [origins, List.mem_flatMap]
  refine exists_congr fun c => ?_
  rw [built.mem_predecessors]
  exact and_iff_right_of_imp fun h => Std.ExtTreeSet.mem_toList.2 (built.wellFormed.mem_alphabet h)

theorem live_eq (built : d.Built) : live d = d.live := by
  have edge : (fun s t => t ∈ origins d s) = Search.Edge d.numStates d.sources := by
    funext s t
    rw [Search.Edge, mem_sources, mem_origins built, eq_iff_iff]
    simp only [built.mem_predecessors]
    exact (and_iff_right_of_imp fun ⟨_, h⟩ => built.wellFormed.target_lt h).symm
  ext t
  rw [live, Dfa.live, mem_flood, Search.mem_reach, edge]

/-- **The dead states do not depend on the order** in which the others are met. -/
theorem dead_eq (built : d.Built) : dead d = d.dead := by
  rw [dead, Dfa.dead, live_eq built]

/-- **Nor does it whether no input is accepted.** -/
theorem isEmpty_eq (wf : d.WellFormed) : isEmpty d = d.isEmpty := by
  have asked : ∀ s, d.acceptStates.contains s = d.isAccepting s := fun s => by
    rw [Bool.eq_iff_iff, List.contains_iff_mem, mem_acceptStates]
  unfold isEmpty Dfa.isEmpty
  rw [reachable_eq wf]
  simp only [asked]
  split
  case isTrue hnone =>
    rw [List.isEmpty_iff] at hnone
    refine (List.all_eq_true.2 fun s _ => ?_).symm
    rw [← asked, hnone]
    rfl
  case isFalse => rfl

end Traversal

/-! ### Answers about words -/

/-- **No reachable state accepts iff no word is accepted.**  There has to be a state, as the start
would be taken for reached otherwise. -/
theorem isEmpty_iff (pos : 0 < d.numStates) : d.isEmpty = true ↔ ∀ w, d.accepts w = false := by
  rw [isEmpty, List.all_eq_true]
  simp only [Std.ExtTreeSet.mem_toList, mem_reachable pos, Bool.not_eq_true']
  constructor
  · intro none w
    rw [← Bool.not_eq_true, accepts, acceptsFrom_iff]
    rintro ⟨t, ht, hacc⟩
    rw [none t ⟨w, ht⟩] at hacc
    cases hacc
  · rintro none s ⟨w, hw⟩
    have := accepts_append hw []
    rwa [List.append_nil, none, acceptsFrom_nil, eq_comm] at this

/-- **A dead state is one from which no word leads to an accepting state.**  It may be out of
reach, and it may be the start. -/
theorem Built.mem_dead (built : d.Built) : s ∈ d.dead ↔
    s < d.numStates ∧ ∀ w t, d.runFrom s w = some t → d.isAccepting t = false := by
  rw [← List.contains_iff_mem, ← isDead, built.isDead_iff]
  refine and_congr_right fun _ => forall_congr' fun w => ?_
  rw [← Bool.not_eq_true, acceptsFrom_iff, not_exists]
  exact forall_congr' fun t => by rw [not_and, Bool.not_eq_true]

/-- States that a word leads to in automata for the same words are dead together. -/
theorem Built.mem_dead_iff_of_accepts_eq (hd : d.Built) (hm : m.Built) (dpos : 0 < d.numStates)
    (mpos : 0 < m.numStates) (accepts_eq : ∀ w, m.accepts w = d.accepts w) {w : List Char}
    (hs : d.run w = some s) (ht : m.run w = some t) : t ∈ m.dead ↔ s ∈ d.dead := by
  have same : ∀ v, m.acceptsFrom t v = d.acceptsFrom s v := fun v => by
    rw [← accepts_append ht, ← accepts_append hs, accepts_eq]
  have hs' := hd.wellFormed.run_lt dpos hs
  have ht' := hm.wellFormed.run_lt mpos ht
  rw [← List.contains_iff_mem, ← List.contains_iff_mem, ← isDead, ← isDead, hm.isDead_iff,
    hd.isDead_iff]
  simp only [same, hs', ht']

/-- Minimization gives an automaton with a state for the same words. -/
theorem Built.exists_minimize (built : d.Built) (pos : 0 < d.numStates) :
    ∃ m, d.minimize = .ok m ∧ m.Built ∧ 0 < m.numStates ∧ ∀ w, m.accepts w = d.accepts w := by
  rcases minimize_spec built pos with ⟨-, hok⟩ | ⟨m, hok, h⟩
  · exact ⟨d, hok, built, pos, fun _ => rfl⟩
  · exact ⟨m, hok, h.built, h.pos, h.accepts_eq⟩

/-- **What is asked of the graph is answered in terms of words.**  The reachable states are those
that some word leads to, and the dead ones, reachable or not, are those from which no word leads
to an accepting state; both are found in whatever order the search goes.  So in the minimal
automaton a state is dead iff the state that the same word led to before was dead.  The automaton
has a state and was built by the steps, which is all that is asked of it. -/
theorem Built.reachable_and_dead (built : d.Built) (pos : 0 < d.numStates) :
    (∀ s, s ∈ Traversal.reachable d ↔ ∃ w, d.run w = some s) ∧
    Traversal.reachable d = d.reachable ∧
    (∀ s, s ∈ Traversal.dead d ↔
      s < d.numStates ∧ ∀ w t, d.runFrom s w = some t → d.isAccepting t = false) ∧
    Traversal.dead d = d.dead ∧
    ∃ m, d.minimize = .ok m ∧ Traversal.dead m = m.dead ∧
      ∀ w s t, d.run w = some s → m.run w = some t → (t ∈ m.dead ↔ s ∈ d.dead) := by
  have reachable_eq := Traversal.reachable_eq built.wellFormed
  have dead_eq := Traversal.dead_eq built
  obtain ⟨m, hok, mbuilt, mpos, accepts_eq⟩ := built.exists_minimize pos
  refine ⟨fun s => ?_, reachable_eq, fun s => ?_, dead_eq, m, hok, Traversal.dead_eq mbuilt,
    fun w s t hs ht => built.mem_dead_iff_of_accepts_eq mbuilt pos mpos accepts_eq hs ht⟩
  · rw [reachable_eq, mem_reachable pos]
  · rw [dead_eq, built.mem_dead]

/-- A circle through an accepting state, a dead state that is reached from it, and another dead
state that nothing leads to. -/
def aside : List Request :=
  [.addState false, .addState true, .addState false, .addState false, .addTransition 0 'a' 1,
    .addTransition 1 'a' 0, .addTransition 1 'b' 2, .addTransition 3 'a' 2, .addTransition 2 'b' 2]

theorem reachable_and_dead_of_aside :
    let d := (withAlphabet (.ofList ['c'])).after aside
    d.Built ∧ 0 < d.numStates ∧
    (∀ s, s ∈ Traversal.reachable d ↔ ∃ w, d.run w = some s) ∧
    Traversal.reachable d = d.reachable ∧
    (∀ s, s ∈ Traversal.dead d ↔
      s < d.numStates ∧ ∀ w t, d.runFrom s w = some t → d.isAccepting t = false) ∧
    Traversal.dead d = d.dead ∧
    ∃ m, d.minimize = .ok m ∧ Traversal.dead m = m.dead ∧
      ∀ w s t, d.run w = some s → m.run w = some t → (t ∈ m.dead ↔ s ∈ d.dead) := by
  intro d
  have built : d.Built := (Built.withAlphabet _).after (by decide)
  have pos : 0 < d.numStates := by decide
  exact ⟨built, pos, built.reachable_and_dead pos⟩

end PatternAutomata.Dfa
