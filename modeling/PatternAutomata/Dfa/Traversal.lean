import PatternAutomata.Dfa.Reachability
import PatternAutomata.Proofs.Dfa.Building

/-!
# Going through a deterministic automaton

The reachable and the dead states again, this time found by loops with a queue and with a stack.
What a search meets does not depend on the order in which it goes, but an implementation has some
order, and the loops here have a particular one: along the edges first come, first served
(`Dfa.Traversal.spread`), and against them latest first (`Dfa.Traversal.flood`).

## When a state is met

The two loops differ in one more respect.  Along the edges a state is met when its turn comes, and
until then it may come onto the queue again.  Against the edges it is met when it is put on the
stack, so that it is put there once.  So they end for different reasons: the queue may grow by
states that are on it already, and what gets smaller is the number of edges not followed yet
(`Search.work`); the stack gets shorter unless something unmet goes onto it.

## Symbol by symbol

Edges are looked up under the symbols of the alphabet, along the edges where they are filed with
the states they leave and against them where they are filed with the states they enter.  An edge
under any other symbol would be passed over.  That there is none is an invariant of how automata
are built, and it is needed for these loops to be right.
-/

namespace PatternAutomata.Dfa.Traversal

/-- The targets of a state, by symbol.  A target comes up once for each symbol that leads to it. -/
def targets (dfa : Dfa) (s : Nat) : List Nat :=
  dfa.alphabet.toList.filterMap (dfa.transition s)

/-- The states that an edge leads to a state from, by symbol. -/
def origins (dfa : Dfa) (s : Nat) : List Nat :=
  dfa.alphabet.toList.flatMap (dfa.predecessors s)

theorem targets_eq_nil_of_le {dfa : Dfa} {s : Nat} (h : dfa.numStates ≤ s) :
    targets dfa s = [] := by
  rw [targets, List.filterMap_eq_nil_iff]
  exact fun c _ => transition_eq_none_of_le h c

theorem origins_eq_nil_of_le {dfa : Dfa} {s : Nat} (h : dfa.numStates ≤ s) :
    origins dfa s = [] := by
  rw [origins, List.flatMap_eq_nil_iff]
  intro c _
  unfold predecessors
  rw [Array.getElem?_eq_none h]

/-! ### Along the edges -/

/-- **The states met along the edges**, those met before included: the first of the queue is
taken, and its targets join the end of the queue unless they were met.  A state that was met in
the meantime is skipped when its turn comes. -/
def spread (dfa : Dfa) (met : StateSet) (queue : List Nat) : StateSet :=
  match queue with
  | [] => met
  | s :: rest =>
    if s ∈ met then spread dfa met rest
    else spread dfa (met.insert s)
      (rest ++ (targets dfa s).filter fun t => !(met.insert s).contains t)
  termination_by Search.work dfa.numStates (targets dfa) met queue
  decreasing_by
    · simp [Search.work]
    · rename_i hs
      have few := List.length_filter_le (fun t => !(met.insert s).contains t) (targets dfa s)
      simp only [Search.work, List.length_append, List.length_cons]
      rcases Nat.lt_or_ge s dfa.numStates with hlt | hle
      · have := Search.edgesLeft_insert (targets dfa) hlt hs
        omega
      · -- a state that does not exist has no edges, so only the queue gets shorter
        rw [targets_eq_nil_of_le hle] at few ⊢
        rw [Search.edgesLeft_insert_of_le _ _ hle]
        simp

/-! ### Against the edges -/

/-- Meets the states of a list that are new, and puts them on a stack.  A state that comes up
twice in the list is put there once. -/
def mark : List Nat → StateSet × List Nat → StateSet × List Nat
  | [], found => found
  | s :: more, (met, stack) =>
    if s ∈ met then mark more (met, stack) else mark more (met.insert s, s :: stack)

/-- The entries of a list that have not been met. -/
def unmet (ends : List Nat) (met : StateSet) : List Nat :=
  ends.filter fun s => !met.contains s

theorem length_unmet_insert_lt {ends : List Nat} {met : StateSet} {s : Nat} (hs : s ∈ ends)
    (new : s ∉ met) : (unmet ends (met.insert s)).length < (unmet ends met).length := by
  have without : unmet ends (met.insert s) = (unmet ends met).filter fun t => decide (s ≠ t) := by
    rw [unmet, unmet, List.filter_filter]
    congr 1
    funext t
    rw [Bool.eq_iff_iff]
    simp [Std.ExtTreeSet.contains_insert]
  have listed : s ∈ unmet ends met := by
    rw [unmet, List.mem_filter, Bool.not_eq_true', ← Bool.not_eq_true,
      Std.ExtTreeSet.contains_iff_mem]
    exact ⟨hs, new⟩
  rw [without, List.length_filter_lt_length_iff_exists]
  exact ⟨s, listed, by simp⟩

/-- What is put on a stack is met. -/
theorem length_mark_add_unmet_le {ends list : List Nat} (inside : ∀ s ∈ list, s ∈ ends)
    (found : StateSet × List Nat) :
    (mark list found).2.length + (unmet ends (mark list found).1).length ≤
      found.2.length + (unmet ends found.1).length := by
  induction list generalizing found with
  | nil => exact Nat.le_refl _
  | cons s list ih =>
      obtain ⟨met, stack⟩ := found
      have later := ih fun t ht => inside t (List.mem_cons_of_mem s ht)
      rw [mark]
      split
      · exact later (met, stack)
      · rename_i new
        have less := length_unmet_insert_lt (inside s List.mem_cons_self) new
        have := later (met.insert s, s :: stack)
        simp only [List.length_cons] at this ⊢
        omega

/-- All states that some edge leaves, each as often as that is so. -/
def allOrigins (dfa : Dfa) : List Nat :=
  (List.range dfa.numStates).flatMap (origins dfa)

/-- **The states met against the edges**, those met before included: the latest of the stack is
taken, and those that an edge leads to it from are met and put on the stack, unless they were met
before. -/
def flood (dfa : Dfa) (met : StateSet) (stack : List Nat) : StateSet :=
  match stack with
  | [] => met
  | s :: rest => flood dfa (mark (origins dfa s) (met, rest)).1 (mark (origins dfa s) (met, rest)).2
  termination_by stack.length + (unmet (allOrigins dfa) met).length
  decreasing_by
    have inside : ∀ t ∈ origins dfa s, t ∈ allOrigins dfa := by
      intro t ht
      rcases Nat.lt_or_ge s dfa.numStates with hlt | hle
      · exact List.mem_flatMap.2 ⟨s, List.mem_range.2 hlt, ht⟩
      · rw [origins_eq_nil_of_le hle] at ht
        exact absurd ht List.not_mem_nil
    -- what comes onto the stack is not unmet any more
    have := length_mark_add_unmet_le inside (met, rest)
    simp only [List.length_cons] at this ⊢
    omega

/-! ### Answers -/

/-- The states that some input leads to. -/
def reachable (dfa : Dfa) : StateSet :=
  if dfa.numStates = 0 then ∅ else spread dfa ∅ [dfa.start]

/-- The states from which some input leads to an accepting state.  The greatest of the accepting
states is looked at first. -/
def live (dfa : Dfa) : StateSet :=
  flood dfa (.ofList dfa.acceptStates) dfa.acceptStates.reverse

/-- The states from which no input leads to an accepting state, ascending. -/
def dead (dfa : Dfa) : List Nat :=
  let live := live dfa
  (List.range dfa.numStates).filter fun s => !live.contains s

/-- Whether no input is accepted.  Where no state accepts, none needs to be met. -/
def isEmpty (dfa : Dfa) : Bool :=
  if dfa.acceptStates.isEmpty then true
  else (reachable dfa).toList.all fun s => !dfa.acceptStates.contains s

end PatternAutomata.Dfa.Traversal
