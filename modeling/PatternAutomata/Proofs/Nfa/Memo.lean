import Mathlib.Data.List.Permutation
import PatternAutomata.Nfa.Memo
import PatternAutomata.Proofs.Error
import PatternAutomata.Proofs.Nfa.Edges
import PatternAutomata.Proofs.Nfa.Stored

/-!
# Closures that are remembered

Whatever an automaton was asked before, the closure that it gives is made up of the states that
its epsilon edges lead to, those that it has now.  `Nfa.Live.closure_exact` says this after any
sequence of requests, for any order in which sets are gone through.

## What makes a remembered closure right

A remembered closure is right if no epsilon edge has come since.  A state may have come: it has no
edges, and so a closure that it was in before it was there is still the same
(`Nfa.Live.Faithful.addState`).  An edge forgets everything that was remembered, even if it reads
a symbol.  So `Nfa.Live.Faithful` is kept by every request, and it says no more than that each
entry is the closure of what it was asked for under.  How entries are compared need not be known
beyond that, since sets that are found under one another have the same members.

## A search, pass by pass

A closure that is not remembered is searched for with a stack.  `Nfa.Visit.Tracks` is the
invariant of a pass: what was met or is on the stack can be reached, and nothing that can be
reached is lost.  The stack may hold a state more than once, and it is passed over the second
time.  The number of passes is bounded by what there is to look at and the edges there are
(`Nfa.Visit.exists_iterate_eq_finish`), so a cycle of epsilon edges does no harm.

## What follows for runs

The closures are those of the run on inputs without memory.  So the same inputs are accepted
whatever is remembered (`Nfa.Live.Faithful.accepts_eq`), and closures grow with what they are
asked for and are their own closures, because they are so by definition.
-/

namespace PatternAutomata.Nfa

variable {nfa : Nfa} {s t : Nat}

/-! ### Epsilon edges -/

/-- An epsilon edge, as the automaton lists it. -/
def EpsilonEdge (nfa : Nfa) (s t : Nat) : Prop :=
  (s, .epsilon, t) ∈ nfa.edges

/-- Any number of epsilon edges lead from a state to a state, with none for the state itself. -/
def EpsilonReaches (nfa : Nfa) : Nat → Nat → Prop :=
  Relation.ReflTransGen nfa.EpsilonEdge

theorem epsilonEdge_iff : nfa.EpsilonEdge s t ↔ t ∈ nfa.silent s := by
  rw [EpsilonEdge, edges_eq, List.mem_append, List.mem_flatMap, List.mem_flatMap]
  constructor
  · rintro (⟨p, -, h⟩ | ⟨p, hp, h⟩)
    · obtain ⟨m, -, h⟩ := List.mem_flatMap.1 h
      obtain ⟨_, -, h⟩ := List.mem_map.1 h
      cases h
    · obtain ⟨_, ht, h⟩ := List.mem_map.1 h
      cases h
      rw [silent_eq (getElem?_of_mem_numbered hp)]
      exact Std.ExtTreeSet.mem_toList.1 ht
  · intro h
    have listed := mem_edges_of_leads (mem_silent.1 h)
    rwa [edges_eq, List.mem_append, List.mem_flatMap, List.mem_flatMap] at listed

/-- A closure is made up of the states that epsilon edges lead to, along listed edges and nothing
else. -/
theorem mem_closure_iff_epsilonReaches {states : StateSet} :
    t ∈ nfa.closure states ↔ ∃ s ∈ states, nfa.EpsilonReaches s t := by
  have edge : Search.Edge nfa.numStates (fun s => (nfa.silent s).toList) = nfa.EpsilonEdge := by
    funext s t
    rw [Search.Edge, Std.ExtTreeSet.mem_toList, epsilonEdge_iff, eq_iff_iff]
    exact and_iff_right_of_imp lt_of_mem_silent
  rw [closure, Search.mem_reach, edge]
  simp only [Std.ExtTreeSet.mem_toList]
  rfl

/-- A closure depends on the epsilon edges alone.  Edges under symbols may come and go, and so may
states without edges. -/
theorem closure_congr {nfa' : Nfa} (h : ∀ s t, nfa'.EpsilonEdge s t ↔ nfa.EpsilonEdge s t)
    (states : StateSet) : nfa'.closure states = nfa.closure states := by
  have same : nfa'.EpsilonEdge = nfa.EpsilonEdge := by
    funext s t
    exact propext (h s t)
  ext t
  rw [mem_closure_iff_epsilonReaches, mem_closure_iff_epsilonReaches, EpsilonReaches, same]
  rfl

/-- The rows list the epsilon edges of the states, so they can be counted by rows. -/
theorem map_numbered_silent (nfa : Nfa) :
    (nfa.numbered.map fun p => p.2.silent.toList.length) =
      (List.range nfa.numStates).map fun s => (nfa.silent s).toList.length := by
  refine List.ext_getElem? fun s => ?_
  rw [numbered, List.map_map, List.getElem?_map, List.getElem?_map, List.getElem?_zipIdx,
    Array.getElem?_toList]
  rcases Nat.lt_or_ge s nfa.numStates with hlt | hle
  · have hrow := Array.getElem?_eq_getElem hlt
    rw [hrow, List.getElem?_range hlt, Option.map_some, Option.map_some, Option.map_some,
      silent_eq hrow]
    rfl
  · rw [Array.getElem?_eq_none hle, List.getElem?_eq_none (by simpa using hle)]
    rfl

/-- There are at least as many edges as epsilon edges, which bounds the passes of a search by a
number that is easy to tell. -/
theorem edgesLeft_empty_le (nfa : Nfa) :
    Search.edgesLeft nfa.numStates (fun s => (nfa.silent s).toList) ∅ ≤ nfa.numTransitions := by
  rw [Search.edgesLeft_empty, numTransitions, edges_eq, List.length_append, List.length_flatMap,
    List.length_flatMap, List.length_flatMap, ← map_numbered_silent]
  simp only [List.length_map]
  exact Nat.le_add_left ..

/-! ### A search, pass by pass -/

namespace Visit

variable {S : Type} [StateStore S] [LawfulStateStore S] {order : Arrangement} {visit : Visit S}
  {starts : S}

/-- **What one pass does**: the latest state is met, whether or not it is new, and what comes to
look at in its place are targets of its epsilon edges, all of them if it is new, but for those
met. -/
theorem pass_spec (order : Arrangement) (nfa : Nfa) {rest : List Nat}
    (h : visit.stack = s :: rest) :
    (∀ t, StateStore.contains (visit.pass order nfa).met t = true ↔
      t = s ∨ StateStore.contains visit.met t = true) ∧
    (∀ t ∈ rest, t ∈ (visit.pass order nfa).stack) ∧
    (∀ t ∈ (visit.pass order nfa).stack, t ∈ rest ∨ nfa.EpsilonEdge s t) ∧
    (∀ t, nfa.EpsilonEdge s t → StateStore.contains visit.met s = true ∨
      StateStore.contains (visit.pass order nfa).met t = true ∨
        t ∈ (visit.pass order nfa).stack) := by
  unfold pass
  rw [h]
  -- a state that was met before is dropped, and any other one brings in the ends of its edges
  by_cases hs : StateStore.contains visit.met s = true
  · simp only [hs, if_true]
    refine ⟨fun t => ⟨.inr, ?_⟩, fun t ht => ht, fun t ht => .inl ht, fun t _ => .inl trivial⟩
    rintro (rfl | ht)
    · exact hs
    · exact ht
  · simp only [hs, Bool.false_eq_true, if_false, List.mem_append, List.mem_reverse,
      List.mem_filter, (order.perm _ _).mem_iff, Std.ExtTreeSet.mem_toList, epsilonEdge_iff,
      LawfulStateStore.contains_insert, Bool.or_eq_true, decide_eq_true_eq, Bool.not_eq_true',
      Bool.or_eq_false_iff, false_or]
    refine ⟨fun t => ?_, fun t ht => .inr ht, fun t ht => ?_, fun t ht => ?_⟩
    · rw [eq_comm]
    · rcases ht with ⟨ht, -⟩ | ht
      · exact .inr ht
      · exact .inl ht
    · by_cases hmet : s = t ∨ StateStore.contains visit.met t = true
      · exact .inl hmet
      · refine .inr (.inl ⟨ht, ?_⟩)
        rwa [not_or, Bool.not_eq_true, ← decide_eq_false_iff_not] at hmet

/-- **What holds at every point of a search**: what was met and what is to be looked at can be
reached, the states searched from are among it, and an epsilon edge does not lead from what was
met to anything else. -/
structure Tracks (nfa : Nfa) (starts : S) (visit : Visit S) : Prop where
  reached : ∀ t, StateStore.contains visit.met t = true ∨ t ∈ visit.stack →
    ∃ s, StateStore.contains starts s = true ∧ nfa.EpsilonReaches s t
  covers : ∀ s, StateStore.contains starts s = true →
    StateStore.contains visit.met s = true ∨ s ∈ visit.stack
  settled : ∀ s t, StateStore.contains visit.met s = true → nfa.EpsilonEdge s t →
    StateStore.contains visit.met t = true ∨ t ∈ visit.stack

theorem Tracks.begin (order : Arrangement) (nfa : Nfa) (starts : S) :
    Tracks nfa starts (.begin order nfa starts) where
  reached t h := by
    simp only [Visit.begin, LawfulStateStore.contains_withCapacity, Bool.false_eq_true, false_or,
      List.mem_reverse, (order.perm _ _).mem_iff, LawfulStateStore.mem_toList] at h
    exact ⟨t, h, .refl⟩
  covers s h := by
    refine .inr ?_
    rwa [Visit.begin, List.mem_reverse, (order.perm _ _).mem_iff, LawfulStateStore.mem_toList]
  settled s t h := by
    rw [Visit.begin, LawfulStateStore.contains_withCapacity] at h
    cases h

/-- Every pass keeps it, also one that looks at a state that has been met already. -/
theorem Tracks.pass (tracks : visit.Tracks nfa starts) :
    (visit.pass order nfa).Tracks nfa starts := by
  cases hstack : visit.stack with
  | nil =>
      have same : visit.pass order nfa = visit := by
        unfold Visit.pass
        rw [hstack]
      rwa [same]
  | cons s rest =>
      obtain ⟨met, keeps, more, follows⟩ := pass_spec order nfa hstack
      -- nothing is lost: what was met or waiting still is, the state on top as one that is met
      have kept : ∀ t, StateStore.contains visit.met t = true ∨ t ∈ visit.stack →
          StateStore.contains (visit.pass order nfa).met t = true ∨
            t ∈ (visit.pass order nfa).stack := by
        rw [hstack]
        rintro t (ht | ht)
        · exact .inl ((met t).2 (.inr ht))
        · rcases List.mem_cons.1 ht with rfl | ht
          · exact .inl ((met t).2 (.inl rfl))
          · exact .inr (keeps t ht)
      have here := tracks.reached s (.inr (hstack ▸ List.mem_cons_self))
      constructor
      · rintro t (ht | ht)
        · rcases (met t).1 ht with rfl | ht
          · exact here
          · exact tracks.reached t (.inl ht)
        · rcases more t ht with ht | edge
          · exact tracks.reached t (.inr (hstack ▸ List.mem_cons_of_mem _ ht))
          · obtain ⟨r, hr, path⟩ := here
            exact ⟨r, hr, path.tail edge⟩
      · exact fun r hr => kept r (tracks.covers r hr)
      · intro r t hr edge
        rcases (met r).1 hr with rfl | hr
        · rcases follows t edge with old | new
          · exact kept t (tracks.settled r t old edge)
          · exact new
        · exact kept t (tracks.settled r t hr edge)

/-- Where nothing is left to look at, everything that can be reached was met, and nothing else. -/
theorem Tracks.contains_iff {S : Type} [StateStore S] {visit : Visit S} {starts : S}
    (tracks : visit.Tracks nfa starts) (done : visit.stack = []) :
    StateStore.contains visit.met t = true ↔
      ∃ s, StateStore.contains starts s = true ∧ nfa.EpsilonReaches s t := by
  have only : ∀ r, StateStore.contains visit.met r = true ∨ r ∈ visit.stack →
      StateStore.contains visit.met r = true := by
    rw [done]
    rintro r (hr | hr)
    · exact hr
    · cases hr
  constructor
  · exact fun h => tracks.reached t (.inl h)
  · rintro ⟨s, hs, path⟩
    induction path with
    | refl => exact only s (tracks.covers s hs)
    | tail _ edge ih => exact only _ (tracks.settled _ _ ih edge)

/-- **A search ends** after as many passes as there is to do, or fewer.  The visit may be any, so
cycles of epsilon edges are no exception. -/
theorem exists_iterate_eq_finish (order : Arrangement) (nfa : Nfa) (visit : Visit S) :
    ∃ n ≤ visit.work nfa, ((pass order nfa)^[n] visit).stack = [] ∧
      ((pass order nfa)^[n] visit).met = visit.finish order nfa := by
  fun_induction finish order nfa visit with
  | case1 visit done => exact ⟨0, Nat.zero_le _, done, rfl⟩
  | case2 visit h ih =>
      obtain ⟨n, hn, done, hmet⟩ := ih
      exact ⟨n + 1, (Nat.succ_le_succ hn).trans (work_pass_lt order nfa h), done, hmet⟩

theorem Tracks.iterate (tracks : visit.Tracks nfa starts) (n : Nat) :
    ((Visit.pass order nfa)^[n] visit).Tracks nfa starts := by
  induction n generalizing visit with
  | zero => exact tracks
  | succ n ih => exact ih tracks.pass

/-- **A search meets what can be reached**, whatever order it goes in. -/
theorem contains_finish_begin (order : Arrangement) (nfa : Nfa) (starts : S) :
    StateStore.contains ((Visit.begin order nfa starts).finish order nfa) t = true ↔
      ∃ s, StateStore.contains starts s = true ∧ nfa.EpsilonReaches s t := by
  obtain ⟨n, -, done, hmet⟩ := exists_iterate_eq_finish order nfa (Visit.begin order nfa starts)
  rw [← hmet]
  exact ((Tracks.begin order nfa starts).iterate n).contains_iff done

theorem elements_finish_begin (order : Arrangement) (nfa : Nfa) (starts : S) :
    StateStore.elements ((Visit.begin order nfa starts).finish order nfa) =
      nfa.closure (StateStore.elements starts) := by
  ext t
  rw [StateStore.mem_elements, contains_finish_begin, mem_closure_iff_epsilonReaches]
  simp only [StateStore.mem_elements]

/-- There are no more passes than there are states to begin with and edges, since each edge is
followed once at most. -/
theorem work_begin_le (order : Arrangement) (nfa : Nfa) (starts : S) :
    (Visit.begin order nfa starts).work nfa ≤ StateStore.size starts + nfa.numTransitions := by
  rw [work, Search.work, Visit.begin, StateStore.elements_withCapacity, List.length_reverse,
    (order.perm _ _).length_eq]
  exact Nat.add_le_add_left nfa.edgesLeft_empty_le _

end Visit

/-! ### What is remembered -/

namespace Live

variable {strategy : Strategy} {live : Live strategy}

/-- **Everything remembered is right**: it is the closure of what it was asked for under.  The
closure is that of the automaton as it is now. -/
def Faithful (live : Live strategy) : Prop :=
  ∀ entry ∈ live.known,
    StateStore.elements entry.2 = live.nfa.closure (StateStore.elements entry.1)

theorem Faithful.fresh (strategy : Strategy) (nfa : Nfa) : (fresh strategy nfa).Faithful :=
  fun _ h => nomatch h

/-- What a faithful automaton gives is the closure, remembered or not.  If it is remembered, it
was asked for under a set with the same members. -/
theorem Faithful.elements_closure (faithful : live.Faithful) (order : Arrangement)
    (states : strategy.Store) :
    StateStore.elements (live.closure order states).1 =
      live.nfa.closure (StateStore.elements states) := by
  unfold closure
  cases hfind : live.known.find? fun entry => StateStore.sameKey entry.1 states with
  | none => exact Visit.elements_finish_begin order live.nfa states
  | some entry =>
      have key := List.find?_some hfind
      have same : StateStore.elements entry.1 = StateStore.elements states :=
        congrArg StateSet.ofList (beq_iff_eq.1 key)
      rw [← same]
      exact faithful entry (List.mem_of_find?_eq_some hfind)

theorem nfa_closure (order : Arrangement) (states : strategy.Store) :
    (live.closure order states).2.nfa = live.nfa := by
  unfold closure
  cases live.known.find? fun entry => StateStore.sameKey entry.1 states <;> rfl

theorem Faithful.ask (faithful : live.Faithful) (order : Arrangement) (states : strategy.Store) :
    (live.closure order states).2.Faithful := by
  intro entry hentry
  rw [nfa_closure]
  have right := faithful.elements_closure order states
  unfold closure at hentry right
  cases hfind : live.known.find? fun entry => StateStore.sameKey entry.1 states with
  | some known =>
      rw [hfind] at hentry
      exact faithful entry hentry
  | none =>
      rw [hfind] at hentry right
      rcases List.mem_cons.1 hentry with rfl | hentry
      · exact right
      · exact faithful entry hentry

/-- **A state that is added has no edges**, so that what is remembered stays right, and need not
be forgotten. -/
theorem Faithful.addState (faithful : live.Faithful) {later : Live strategy}
    (h : live.addState = .ok later) : later.Faithful := by
  obtain ⟨b, hb, h⟩ := Error.bind_eq_ok_iff.1 h
  obtain rfl := Error.eq_of_check hb
  cases h
  intro entry hentry
  refine (faithful entry hentry).trans (closure_congr (fun s t => ?_) _).symm
  rw [epsilonEdge_iff, epsilonEdge_iff, mem_silent, mem_silent]
  show Leads (live.nfa.rows.push .empty) s .epsilon t ↔ _
  rw [Array.push_eq_append, leads_append, or_iff_left]
  rintro ⟨r, -, hr⟩
  exact not_mem_targets_empty .epsilon (leads_singleton.1 hr).2

/-- **An edge that is added** leaves nothing remembered, whatever its label. -/
theorem Faithful.addEdge {later : Live strategy} {source target : Nat} {label : Label}
    (h : live.addEdge source label target = .ok later) : later.Faithful := by
  obtain ⟨b, -, h⟩ := Error.bind_eq_ok_iff.1 h
  cases h
  exact fun _ h => nomatch h

/-- **What is remembered stays right**, whatever is asked for.  A refused request changes
nothing. -/
theorem Faithful.perform (faithful : live.Faithful) (request : Request strategy) :
    (live.perform request).Faithful := by
  cases request with
  | addState =>
      show (live.addState.toOption.getD live).Faithful
      cases h : live.addState with
      | ok later => exact faithful.addState h
      | error e => exact faithful
  | addEdge source label target =>
      show ((live.addEdge source label target).toOption.getD live).Faithful
      cases h : live.addEdge source label target with
      | ok later => exact Faithful.addEdge h
      | error e => exact faithful
  | ask order states => exact faithful.ask order states

theorem Faithful.after (faithful : live.Faithful) (requests : List (Request strategy)) :
    (live.after requests).Faithful := by
  induction requests generalizing live with
  | nil => exact faithful
  | cons request rest ih => exact ih (faithful.perform request)

theorem Faithful.contains_closure (faithful : live.Faithful) (order : Arrangement)
    (states : strategy.Store) {t : Nat} :
    StateStore.contains (live.closure order states).1 t = true ↔
      ∃ s, StateStore.contains states s = true ∧ live.nfa.EpsilonReaches s t := by
  rw [← StateStore.mem_elements, faithful.elements_closure, mem_closure_iff_epsilonReaches]
  simp only [StateStore.mem_elements]

/-- The closure is that of the run on inputs, which remembers nothing. -/
theorem Faithful.same_closureIn (faithful : live.Faithful) (order : Arrangement)
    (states : strategy.Store) :
    StateStore.same (live.closure order states).1 (live.nfa.closureIn states) = true := by
  refine (LawfulStateStore.same_iff _ _).2 fun t => ?_
  rw [Bool.eq_iff_iff, ← StateStore.mem_elements, ← StateStore.mem_elements, elements_closureIn,
    faithful.elements_closure]

section

variable {later : Live strategy} (faithful : live.Faithful) (faithful' : later.Faithful)
  (unchanged : later.nfa = live.nfa)
include faithful faithful' unchanged

/-- The closure of more is more, also if something was asked for in between. -/
theorem Faithful.closure_mono (order order' : Arrangement) {states more : strategy.Store}
    (h : ∀ s, StateStore.contains states s = true → StateStore.contains more s = true) {t : Nat}
    (ht : StateStore.contains (live.closure order states).1 t = true) :
    StateStore.contains (later.closure order' more).1 t = true := by
  rw [faithful.contains_closure] at ht
  rw [faithful'.contains_closure, unchanged]
  obtain ⟨s, hs, path⟩ := ht
  exact ⟨s, h s hs, path⟩

/-- A closure is its own closure, as epsilon edges in a row are epsilon edges. -/
theorem Faithful.closure_idem (order order' : Arrangement) (states : strategy.Store) :
    StateStore.same (later.closure order' (live.closure order states).1).1
      (live.closure order states).1 = true := by
  refine (LawfulStateStore.same_iff _ _).2 fun t => ?_
  rw [Bool.eq_iff_iff, faithful'.contains_closure, unchanged]
  constructor
  · rintro ⟨r, hr, path⟩
    rw [faithful.contains_closure] at hr ⊢
    obtain ⟨s, hs, before⟩ := hr
    exact ⟨s, hs, before.trans path⟩
  · exact fun ht => ⟨t, ht, .refl⟩

end

/-! ### Runs -/

theorem elements_move (order : Arrangement) (states : strategy.Store) (c : Char) :
    StateStore.elements (live.move order states c) =
      live.nfa.move (StateStore.elements states) c := by
  ext t
  rw [move, mem_elements_foldl_union, mem_move, StateStore.elements_withCapacity]
  simp only [Std.ExtTreeSet.not_mem_empty, false_or, (order.perm _ _).mem_iff,
    LawfulStateStore.mem_toList, StateStore.mem_elements]

/-- **A run goes by the closures**, remembered or not.  Every symbol may be read with another
order, since the sets are equal whatever it is. -/
theorem Faithful.acceptsFrom_eq (faithful : live.Faithful) (orders : Nat → Arrangement)
    (active : strategy.Store) (w : List Char) :
    (live.acceptsFrom orders active w).1 =
      live.nfa.acceptsFrom (StateStore.elements active) w := by
  induction w generalizing live orders active with
  | nil => exact live.nfa.acceptingIn_eq active
  | cons c w ih =>
      let moved := live.move (orders 0) active c
      have next : StateStore.elements (live.closure (orders 1) moved).1 =
          live.nfa.advance (StateStore.elements active) c := by
        rw [faithful.elements_closure, elements_move]
        rfl
      have rest := ih (faithful.ask (orders 1) moved) (fun number => orders (number + 2))
        (live.closure (orders 1) moved).1
      rw [nfa_closure, next] at rest
      unfold Live.acceptsFrom Nfa.acceptsFrom
      simp only [StateStore.isEmpty_eq, next, moved]
      by_cases dead : (live.nfa.advance (StateStore.elements active) c).isEmpty
      · rw [if_pos dead, if_pos dead]
      · rw [if_neg dead, if_neg dead]
        exact rest

/-- **The same inputs are accepted** whatever is remembered, and whatever is remembered on the
way. -/
theorem Faithful.accepts_eq (faithful : live.Faithful) (orders : Nat → Arrangement)
    (w : List Char) : (live.accepts orders w).1 = strategy.accepts live.nfa w := by
  have initial := faithful.elements_closure (orders 0)
    (StateStore.singleton live.nfa.start live.nfa.numStates)
  rw [StateStore.elements_singleton] at initial
  have run := (faithful.ask (orders 0)
    (StateStore.singleton live.nfa.start live.nfa.numStates)).acceptsFrom_eq
      (fun number => orders (number + 1)) (live.closure (orders 0)
        (StateStore.singleton live.nfa.start live.nfa.numStates)).1 w
  rw [nfa_closure, initial] at run
  rw [strategy.accepts_eq]
  exact run

/-! ### After any requests -/

/-- **Closures are exact, and it does not show what is remembered.**  After any states and edges
that were added and any closures that were asked for, the closure of some states is made up of the
states that the epsilon edges of the automaton lead to, as it is at that time; it is that of the
run on inputs.  A search for it ends, however the edges run, after at most as many passes as there
are states to begin with and edges.  So a closure has the states it is asked for, grows with them,
and is its own closure. -/
theorem closure_exact (strategy : Strategy) (nfa : Nfa) (requests : List (Request strategy))
    (order : Arrangement) (states : strategy.Store) :
    let live := (fresh strategy nfa).after requests
    let answer := (live.closure order states).1
    let later := (live.closure order states).2
    (∀ t, StateStore.contains answer t = true ↔
      ∃ s, StateStore.contains states s = true ∧ live.nfa.EpsilonReaches s t) ∧
    StateStore.same answer (live.nfa.closureIn states) = true ∧
    (∃ n ≤ StateStore.size states + live.nfa.numTransitions,
      ((Visit.pass order live.nfa)^[n] (.begin order live.nfa states)).stack = []) ∧
    (∀ s, StateStore.contains states s = true → StateStore.contains answer s = true) ∧
    (∀ (order' : Arrangement) (more : strategy.Store),
      (∀ s, StateStore.contains states s = true → StateStore.contains more s = true) →
      ∀ t, StateStore.contains answer t = true →
        StateStore.contains (later.closure order' more).1 t = true) ∧
    ∀ order' : Arrangement, StateStore.same (later.closure order' answer).1 answer = true := by
  intro live answer later
  have faithful : live.Faithful := (Faithful.fresh strategy nfa).after requests
  have faithful' : later.Faithful := faithful.ask order states
  have unchanged : later.nfa = live.nfa := nfa_closure order states
  have exact : ∀ t, StateStore.contains answer t = true ↔
      ∃ s, StateStore.contains states s = true ∧ live.nfa.EpsilonReaches s t := fun t =>
    faithful.contains_closure order states
  obtain ⟨n, hn, done, -⟩ :=
    Visit.exists_iterate_eq_finish order live.nfa (Visit.begin order live.nfa states)
  exact ⟨exact, faithful.same_closureIn order states,
    ⟨n, hn.trans (Visit.work_begin_le order live.nfa states), done⟩,
    fun s hs => (exact s).2 ⟨s, hs, .refl⟩,
    fun order' more h t ht => faithful.closure_mono faithful' unchanged order order' h ht,
    fun order' => faithful.closure_idem faithful' unchanged order order' states⟩

/-- Sets are gone through from their end, which is an order as good as any. -/
def backwards : Arrangement := ⟨fun _ states => states.reverse, fun _ => List.reverse_perm⟩

/-- The first of two states, which edges lead to and fro between, was asked for before they came
and after. -/
def detour : List (Request .bit) :=
  [.ask backwards (StateStore.singleton 0 1), .addState, .addEdge 0 .epsilon 1,
    .addEdge 1 .epsilon 0, .ask backwards (StateStore.singleton 0 1)]

/-- What is remembered from before the edges came is not given afterwards, and the closure that is
asked for with room for one state more is one that is remembered. -/
theorem closure_exact_of_detour :
    let live := (fresh .bit .epsilon).after detour
    let states : Strategy.bit.Store := StateStore.singleton 0 2
    live.known.length = 1 ∧ StateStore.contains (live.closure backwards states).1 1 = true ∧
      ∃ s, StateStore.contains states s = true ∧ live.nfa.EpsilonReaches s 1 := by
  intro live states
  have met : StateStore.contains (live.closure backwards states).1 1 = true := by cbv
  exact ⟨by cbv, met, ((closure_exact .bit .epsilon detour backwards states).1 1).1 met⟩

end Live

end PatternAutomata.Nfa
