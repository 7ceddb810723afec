import PatternAutomata.Nfa.Memo
import PatternAutomata.Proofs.Guarded.Basic

/-!
# Looking for an accepting state

Whether a nondeterministic automaton accepts anything is found out by looking for an accepting
state from the start state on, until one is met (`Nfa.emptyFrom`).

## Which states come first

The queue grows at its end, by the targets under every symbol, in the order in which symbols first
got an edge, and then by those under epsilon (`Nfa.Row.targetSets`).  The states of one set come
in any order, as an `Arrangement` has it.  So which accepting state is met first is left open, and
the answer must not depend on it.

## The early exit

The search stops as soon as an accepting state is met, and then nothing is known of the states
behind it.  So the usual invariant, that what was met is closed under edges but for what is on the
queue, says nothing when the search has stopped; it is needed for the other answer alone.

The rows of states are looked up without a check.  A state that the automaton does not have would
therefore break the search off, which is what `Guarded` records: there is a third outcome besides
yes and no, and it has to be shown that it does not occur.
-/

namespace PatternAutomata

namespace Nfa

/-- The sets of targets that a state has: those under symbols, then the one under epsilon. -/
def Row.targetSets (row : Row) : List StateSet :=
  row.moves.map (·.2) ++ [row.silent]

variable {S : Type} [StateStore S]

/-- The states of some sets that have not been met, set after set.  The first of the sets is the
given one in number to be gone through.  A state that is in two of the sets comes up twice. -/
def fresh (order : Arrangement) (met : S) : Nat → List StateSet → List Nat
  | _, [] => []
  | number, set :: sets =>
    ((order.arrange number set.toList).filter fun t => !StateStore.contains met t) ++
      fresh order met (number + 1) sets

theorem mem_fresh {order : Arrangement} {met : S} {number : Nat} {sets : List StateSet} {t : Nat} :
    t ∈ fresh order met number sets ↔
      (∃ set ∈ sets, t ∈ set) ∧ StateStore.contains met t = false := by
  induction sets generalizing number with
  | nil => simp [fresh]
  | cons set sets ih =>
      rw [fresh, List.mem_append, ih, List.mem_filter, (order.perm _ _).mem_iff,
        Std.ExtTreeSet.mem_toList, Bool.not_eq_true', ← or_and_right]
      simp only [List.mem_cons, exists_eq_or_imp]

theorem length_fresh_le (order : Arrangement) (met : S) (number : Nat) (sets : List StateSet) :
    (fresh order met number sets).length ≤ (sets.flatMap (·.toList)).length := by
  induction sets generalizing number with
  | nil => exact Nat.le_refl _
  | cons set sets ih =>
      rw [fresh, List.flatMap_cons, List.length_append, List.length_append]
      refine Nat.add_le_add ?_ (ih (number + 1))
      rw [← (order.perm number set.toList).length_eq]
      exact List.length_filter_le ..

/-- The sets of targets of a state have its successors, so the search has no more to do than one
along successors. -/
theorem flatMap_targetSets {nfa : Nfa} {s : Nat} {row : Row} (h : nfa.rows[s]? = some row) :
    row.targetSets.flatMap (·.toList) = nfa.successors s := by
  unfold successors Row.targetSets
  rw [h, List.flatMap_append, List.flatMap_map]
  simp

/-- Whether no accepting state is met, from a queue of states on.  A state is asked whether it
accepts before its row is looked up. -/
def emptyFrom {S : Type} [StateStore S] [LawfulStateStore S] (order : Arrangement) (nfa : Nfa)
    (met : S) (number : Nat) (queue : List Nat) : Guarded Bool :=
  match queue with
  | [] => .ok true
  | s :: rest =>
    if StateStore.contains met s then emptyFrom order nfa met number rest
    else if StateStore.contains (hold S nfa.accepting) s then .ok false
    else
      match _ : nfa.rows[s]? with
      | none => .error .outOfRange
      | some row =>
        emptyFrom order nfa (StateStore.insert met s) (number + row.targetSets.length)
          (rest ++ fresh order (StateStore.insert met s) number row.targetSets)
  termination_by Search.work nfa.numStates nfa.successors (StateStore.elements met) queue
  decreasing_by
    · simp [Search.work]
    · rename_i new _ hrow
      have there : s < nfa.numStates := (Array.getElem?_eq_some_iff.1 hrow).1
      have left := Search.edgesLeft_insert nfa.successors there (mt StateStore.mem_elements.1 new)
      have few := length_fresh_le order (StateStore.insert met s) number row.targetSets
      rw [flatMap_targetSets hrow] at few
      simp only [Search.work, List.length_append, List.length_cons, StateStore.elements_insert]
      omega

end Nfa

/-- **Whether nothing is accepted**, found out with the sets of a strategy, where sets are gone
through in some order. -/
def Strategy.isEmpty (strategy : Strategy) (order : Arrangement) (nfa : Nfa) : Guarded Bool :=
  nfa.emptyFrom order (StateStore.withCapacity nfa.numStates : strategy.Store) 0 [nfa.start]

end PatternAutomata
