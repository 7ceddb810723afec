import Mathlib.Data.List.Induction
import Mathlib.Data.List.Nodup
import PatternAutomata.Dfa.Reachability
import PatternAutomata.Proofs.Alphabet
import PatternAutomata.Proofs.Dfa.Building
import PatternAutomata.Proofs.Dfa.Run
import PatternAutomata.Proofs.Search

/-!
# Reachable and dead states

The search along the edges finds the states that some word leads to (`Dfa.mem_reachable`), and the
search against them finds the states from which some word is accepted (`Dfa.Built.mem_live`).
With these two, reachable and dead are properties of words, and the searches are not mentioned
again.

## Backwards

The second search reads the edges where they are filed with the states they enter.  That the edges
filed there are those filed with the states they leave (`Dfa.Built.mem_predecessors`) holds
because an edge is filed once, when it is new, with both.  It is a property of automata that were
built, and no property of the edges, which is why the statements about dead states ask for
`Dfa.Built` and those about reachable ones do not.

## Where reached

Two conditions are about reachable states only.  `Dfa.FullWhereReached` says that no edge is
missing there, and `Dfa.LiveWhereReached` that no such state is dead.  Minimization looks at
nothing else, so an automaton may have any defect in states that are never reached.
-/

namespace PatternAutomata.Dfa

variable {d : Dfa}

/-! ### Along the edges -/

theorem mem_successors {s t : Nat} : t ∈ d.successors s ↔ ∃ c, d.transition s c = some t := by
  unfold successors transition
  cases d.states[s]? with
  | none => simp
  | some row =>
      simp only [List.mem_map, Prod.exists, Std.ExtTreeMap.mem_toList_iff_getElem?_eq_some]
      constructor
      · rintro ⟨c, u, h, rfl⟩
        exact ⟨c, h⟩
      · rintro ⟨c, h⟩
        exact ⟨c, t, h, rfl⟩

theorem WellFormed.runFrom_lt (wf : d.WellFormed) {s t : Nat} {w : List Char}
    (hs : s < d.numStates) (h : d.runFrom s w = some t) : t < d.numStates := by
  induction w generalizing s with
  | nil =>
      rw [runFrom_nil, Option.some.injEq] at h
      exact h ▸ hs
  | cons c w ih =>
      rw [runFrom_cons, Option.bind_eq_some_iff] at h
      obtain ⟨u, hu, h⟩ := h
      exact ih (wf.target_lt hu) h

theorem WellFormed.run_lt (wf : d.WellFormed) (hpos : 0 < d.numStates) {t : Nat}
    {w : List Char} (h : d.run w = some t) : t < d.numStates :=
  wf.runFrom_lt (wf.start_lt hpos) h

/-- **The reachable states are those that some word leads to.**  An automaton without states is
excluded: the empty word leads to its start, which is no state. -/
theorem mem_reachable (hpos : 0 < d.numStates) {s : Nat} :
    s ∈ d.reachable ↔ ∃ w, d.run w = some s := by
  unfold reachable
  rw [if_neg (Nat.ne_of_gt hpos), Search.mem_reach]
  constructor
  · rintro ⟨p, hp, path⟩
    obtain rfl := List.mem_singleton.1 hp
    induction path with
    | refl => exact ⟨[], rfl⟩
    | tail _ edge ih =>
        obtain ⟨w, hw⟩ := ih
        obtain ⟨c, hc⟩ := mem_successors.1 edge.2
        refine ⟨w ++ [c], ?_⟩
        rw [run_concat, hw]
        exact hc
  · rintro ⟨w, hw⟩
    refine ⟨d.start, List.mem_singleton_self _, ?_⟩
    induction w using List.reverseRecOn generalizing s with
    | nil =>
        cases hw
        exact .refl
    | append_singleton w c ih =>
        rw [run_concat, Option.bind_eq_some_iff] at hw
        obtain ⟨r, hr, hstep⟩ := hw
        exact .tail (ih hr) ⟨lt_of_transition_eq_some hstep, mem_successors.2 ⟨c, hstep⟩⟩

/-- No edge is missing from a state that some word leads to.  States that are not reached may lack
edges. -/
def FullWhereReached (d : Dfa) : Prop :=
  ∀ w s, d.run w = some s → ∀ c ∈ d.alphabet, ∃ t, d.transition s c = some t

/-- From every state that some word leads to a word is accepted. -/
def LiveWhereReached (d : Dfa) : Prop :=
  ∀ w s, d.run w = some s → ∃ v, d.acceptsFrom s v = true

/-! ### Against the edges -/

@[simp] theorem predecessors_addState (d : Dfa) (b : Bool) (t : Nat) (c : Char) :
    (d.addState b).predecessors t c = d.predecessors t c := by
  unfold predecessors addState
  rw [Array.getElem?_push]
  by_cases h : t = d.states.size
  · subst h
    simp
  · simp [h]

/-- An edge is filed with the state it enters, after those filed there before. -/
theorem predecessors_file {target : Nat} (h : target < d.numStates) (source : Nat) (c : Char)
    (t : Nat) (b : Char) :
    (d.file source c target).predecessors t b =
      if t = target ∧ b = c then d.predecessors t b ++ [source] else d.predecessors t b := by
  unfold predecessors file
  rw [Array.getElem?_modify, Array.getElem?_modify]
  by_cases ht : t = target
  · subst ht
    have hlt : t < d.states.size := h
    by_cases hb : b = c
    · by_cases hs : source = t <;> simp [hlt, hb, hs]
    · have hcb : ¬ c = b := fun e => hb e.symm
      by_cases hs : source = t <;> simp [hlt, hb, hcb, hs, Std.ExtTreeMap.getElem?_insert]
  · have hne : ¬ target = t := fun e => ht e.symm
    cases hrow : d.states[t]? with
    | none => simp [ht, hne]
    | some row => by_cases hs : source = t <;> simp [ht, hne, hs]

/-- **Every edge is filed with the state it enters as well**, and nothing else is.  The proof is
by the steps of building, and filing an edge is the only one that changes either side. -/
theorem Built.mem_predecessors (hb : d.Built) {s t : Nat} {c : Char} :
    s ∈ d.predecessors t c ↔ d.transition s c = some t := by
  induction hb generalizing s t c with
  | withAlphabet alphabet => simp [predecessors, transition, Dfa.withAlphabet]
  | addState accepting _ ih => rw [predecessors_addState, transition_addState, ih]
  | @addTransition dfa dfa' source target b _ hadd ih =>
      obtain ⟨hs, ht, ⟨-, rfl⟩ | ⟨hnone, rfl⟩⟩ := addTransition_cases hadd
      · exact ih
      · rw [predecessors_file ht, transition_file hs]
        by_cases hc : c = b
        · subst hc
          by_cases hsource : s = source
          · subst hsource
            have old : s ∉ dfa.predecessors t c := by simp [ih, hnone]
            by_cases htarget : t = target
            · simp [htarget]
            · have hne : ¬ target = t := fun e => htarget e.symm
              simp [htarget, hne, old]
          · by_cases htarget : t = target <;> simp [htarget, hsource, ih]
        · simp [hc, ih]
  | setStart _ _ ih => exact ih
  | setMapping _ _ ih => exact ih

theorem mem_sources {s t : Nat} : s ∈ d.sources t ↔ ∃ c, s ∈ d.predecessors t c := by
  unfold sources predecessors
  cases d.states[t]? with
  | none => simp
  | some row =>
      simp only [List.mem_flatMap, Prod.exists, Std.ExtTreeMap.mem_toList_iff_getElem?_eq_some,
        List.mem_reverse]
      constructor
      · rintro ⟨c, list, hlist, hs⟩
        exact ⟨c, by rwa [hlist]⟩
      · rintro ⟨c, hs⟩
        cases hlist : row.sources[c]? with
        | none =>
            rw [hlist] at hs
            cases hs
        | some list =>
            rw [hlist] at hs
            exact ⟨c, list, hlist, hs⟩

/-- **The live states are those from which some word is accepted.** -/
theorem Built.mem_live (hb : d.Built) {s : Nat} :
    s ∈ d.live ↔ ∃ w, d.acceptsFrom s w = true := by
  unfold live
  rw [Search.mem_reach]
  constructor
  · rintro ⟨p, hp, path⟩
    induction path with
    | refl => exact ⟨[], mem_acceptStates.1 hp⟩
    | tail _ edge ih =>
        obtain ⟨w, hw⟩ := ih
        obtain ⟨c, hc⟩ := mem_sources.1 edge.2
        refine ⟨c :: w, ?_⟩
        rw [acceptsFrom_cons, hb.mem_predecessors.1 hc]
        exact hw
  · rintro ⟨w, hw⟩
    induction w generalizing s with
    | nil => exact ⟨s, mem_acceptStates.2 hw, .refl⟩
    | cons c w ih =>
        rw [acceptsFrom_cons] at hw
        cases hstep : d.transition s c with
        | none =>
            rw [hstep] at hw
            cases hw
        | some t =>
            rw [hstep] at hw
            obtain ⟨p, hp, path⟩ := ih hw
            exact ⟨p, hp, path.tail ⟨hb.wellFormed.target_lt hstep,
              mem_sources.2 ⟨c, hb.mem_predecessors.2 hstep⟩⟩⟩

/-- **From a dead state no word is accepted.**  Only states are dead, so the bound is part of the
statement. -/
theorem Built.isDead_iff (hb : d.Built) {s : Nat} :
    d.isDead s = true ↔ s < d.numStates ∧ ∀ w, d.acceptsFrom s w = false := by
  rw [isDead, List.contains_iff_mem, dead, List.mem_filter, List.mem_range, Bool.not_eq_true',
    ← Bool.not_eq_true, Std.ExtTreeSet.contains_iff_mem, hb.mem_live, not_exists]
  simp only [Bool.not_eq_true]

/-- No reachable state is dead iff some word is accepted from every state that is reached. -/
theorem Built.liveWhereReached (hb : d.Built) (hpos : 0 < d.numStates)
    (alive : ∀ s ∈ d.reachable, d.isDead s = false) : d.LiveWhereReached := by
  intro w s hw
  have hdead := alive s ((mem_reachable hpos).2 ⟨w, hw⟩)
  rw [← Bool.not_eq_true, hb.isDead_iff, not_and] at hdead
  by_contra hnone
  refine hdead (hb.wellFormed.run_lt hpos hw) fun v => ?_
  rw [← Bool.not_eq_true]
  exact fun hv => hnone ⟨v, hv⟩

/-- No edge is missing from a reachable state. -/
theorem fullWhereReached (hpos : 0 < d.numStates)
    (full : ∀ s ∈ d.reachable, ∀ c ∈ d.alphabet, d.transition s c ≠ none) :
    d.FullWhereReached := fun w s hw c hc =>
  Option.ne_none_iff_exists'.1 (full s ((mem_reachable hpos).2 ⟨w, hw⟩) c hc)

end PatternAutomata.Dfa
