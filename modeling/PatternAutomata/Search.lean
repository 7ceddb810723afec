import PatternAutomata.StateSet.Lawful

/-!
# Search in a graph of states

Epsilon closures, reachable states and states from which nothing can be accepted are all found by
the same search: from some states, along some edges, as far as it goes.  `Search.reach` is this
search for sorted sets, and `Search.collect` is the same with the states met so far held in any
store.

## Why it ends

The search keeps a list of states that are still to be looked at, and the list may grow.  A state
that was met before costs one step; a state met for the first time is replaced on the list by its
successors.  What goes down by at least one either way is `Search.work`, which counts the list and
the edges that start in states not met yet: the successors that come onto the list were counted as
edges before.  So the search ends on every graph, cycles and all, and it is a recursion on the
work and on no fuel.

The measure is stated apart from the search since the loops in a fixed order, with a queue or with
an early exit, end by the same count.

States at or beyond `size` have no edges and are met only as starting points or ends.
-/

namespace PatternAutomata.Search

/-- The number of edges that start in the first `size` states, as far as these are not
in `seen`. -/
def edgesLeft (size : Nat) (next : Nat → List Nat) (seen : StateSet) : Nat :=
  match size with
  | 0 => 0
  | s + 1 => edgesLeft s next seen + if s ∈ seen then 0 else (next s).length

/-- What is left to do: the states to look at, and the edges of the states not met.  The states
alone would not do as a measure, since meeting one puts others on the list. -/
def work (size : Nat) (next : Nat → List Nat) (seen : StateSet) (pending : List Nat) : Nat :=
  pending.length + edgesLeft size next seen

theorem edgesLeft_insert_of_le {size : Nat} (next : Nat → List Nat) (seen : StateSet)
    {s : Nat} (h : size ≤ s) : edgesLeft size next (seen.insert s) = edgesLeft size next seen := by
  induction size with
  | zero => rfl
  | succ n ih =>
    have hne : ¬ s = n := by omega
    simp [edgesLeft, ih (by omega), Std.ExtTreeSet.mem_insert, hne]

/-- Meeting a state takes its edges off those that are left, which pays for the successors that
come onto the list. -/
theorem edgesLeft_insert {size : Nat} (next : Nat → List Nat) {seen : StateSet} {s : Nat}
    (hs : s < size) (hn : s ∉ seen) :
    edgesLeft size next (seen.insert s) + (next s).length = edgesLeft size next seen := by
  induction size with
  | zero => omega
  | succ n ih =>
    by_cases h : s = n
    · subst h
      simp [edgesLeft, edgesLeft_insert_of_le, hn]
    · have := ih (by omega)
      simp only [edgesLeft, Std.ExtTreeSet.mem_insert, Nat.compare_eq_eq, h, false_or]
      omega

/-- The states in `seen` and those met from the states in `pending` along the edges of the first
`size` states.  Successors go to the front of the list, so the search goes deep first; what it
finds does not depend on this. -/
def reach (size : Nat) (next : Nat → List Nat) (seen : StateSet) (pending : List Nat) :
    StateSet :=
  match pending with
  | [] => seen
  | s :: rest =>
    if s ∈ seen then reach size next seen rest
    else if s < size then reach size next (seen.insert s) (next s ++ rest)
    else reach size next (seen.insert s) rest
  termination_by work size next seen pending
  decreasing_by
    · simp [work]
    · rename_i hn hs
      have := edgesLeft_insert next hs hn
      simp only [work, List.length_append, List.length_cons]
      omega
    · rename_i hn hs
      simp [work, edgesLeft_insert_of_le next seen (Nat.le_of_not_lt hs)]

/-- The same search, with the states met so far held in a store. -/
def collect {S : Type} [StateStore S] [LawfulStateStore S] (size : Nat) (next : Nat → List Nat)
    (seen : S) (pending : List Nat) : S :=
  match pending with
  | [] => seen
  | s :: rest =>
    if StateStore.contains seen s then collect size next seen rest
    else if s < size then collect size next (StateStore.insert seen s) (next s ++ rest)
    else collect size next (StateStore.insert seen s) rest
  termination_by work size next (StateStore.elements seen) pending
  decreasing_by
    · simp [work]
    · rename_i hn hs
      have := edgesLeft_insert next hs (mt StateStore.mem_elements.1 hn)
      simp only [work, List.length_append, List.length_cons, StateStore.elements_insert]
      omega
    · rename_i hn hs
      simp [work, edgesLeft_insert_of_le next _ (Nat.le_of_not_lt hs)]

@[simp] theorem reach_nil (size : Nat) (next : Nat → List Nat) (seen : StateSet) :
    reach size next seen [] = seen := by
  rw [reach]

end PatternAutomata.Search
