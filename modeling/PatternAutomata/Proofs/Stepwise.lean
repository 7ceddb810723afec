import PatternAutomata.Proofs.Powerset

/-!
# The powerset construction step by step

States and edges can be added while a system is surveyed: a state when a point is met for the
first time, and an edge as soon as its target has a number.  Every edge joins states that are
there and is the first of its state under its symbol, so nothing but the ceiling ever refuses a
step (`TransitionSystem.Stepwise.determinize_eq`).

## The history of an automaton

The automaton made so far is known by its history: it is what one gets from the states alone by
adding the edges in the order in which they were met (`TransitionSystem.Made`).  A state that is
added later makes no difference to that, since edges that can be added can be added once there is
one state more (`Dfa.addTransitions_addState`).  So the invariant does not have to say in which
order states and edges came.

## Rounds

A round follows the edges of one point.  It is compared with a round of the survey: both number
the same targets, and both stop at the same number (`TransitionSystem.Made.row_cases`).  That an
edge is the first of its state under its symbol is known because the symbols of a point ascend,
and because the points before it have other numbers.

## The ceiling

The survey only says that it was refused, and the construction names a number of states.  It is
always one more than the limit, as the refusal is for the first state that there is no room for.
-/

namespace PatternAutomata

/-! ### States before edges -/

namespace Dfa

variable {dfa dfa' : Dfa} {edges : List (Nat × Char × Nat)}

theorem addState_file {source target : Nat} (hsource : source < dfa.numStates)
    (htarget : target < dfa.numStates) (c : Char) (accepting : Bool) :
    (dfa.file source c target).addState accepting =
      (dfa.addState accepting).file source c target := by
  have modify_push : ∀ {entries : Array State} {i : Nat}, i < entries.size →
      ∀ (f : State → State) (s : State),
        (entries.modify i f).push s = (entries.push s).modify i f := by
    intro entries i hi f s
    refine Array.ext_getElem? fun j => ?_
    rw [Array.getElem?_push, Array.getElem?_modify, Array.getElem?_modify, Array.getElem?_push,
      Array.size_modify]
    by_cases hj : j = entries.size
    · simp [hj, Nat.ne_of_lt hi]
    · simp [hj]
  have hsource : source < dfa.states.size := hsource
  have htarget : target < dfa.states.size := htarget
  simp only [file, addState]
  rw [modify_push (by rwa [Array.size_modify]), modify_push hsource]

theorem addTransition_addState {source target : Nat} {c : Char}
    (h : dfa.addTransition source c target = .ok dfa') (accepting : Bool) :
    (dfa.addState accepting).addTransition source c target = .ok (dfa'.addState accepting) := by
  obtain ⟨hsource, htarget, hcases⟩ := addTransition_cases h
  have inside : ¬ ((dfa.addState accepting).numStates ≤ source ∨
      (dfa.addState accepting).numStates ≤ target) := by
    rw [numStates_addState]
    omega
  rw [addTransition, if_neg inside, transition_addState]
  rcases hcases with ⟨present, rfl⟩ | ⟨absent, rfl⟩
  · rw [present]
    exact if_pos rfl
  · rw [absent, addState_file hsource htarget]

/-- **Edges that can be added can be added once there is one state more**, and it does not matter
when the state is added. -/
theorem addTransitions_addState (h : dfa.addTransitions edges = .ok dfa') (accepting : Bool) :
    (dfa.addState accepting).addTransitions edges = .ok (dfa'.addState accepting) := by
  induction edges generalizing dfa with
  | nil =>
      cases h
      rfl
  | cons e edges ih =>
      obtain ⟨source, c, target⟩ := e
      obtain ⟨first, hfirst, hrest⟩ := Error.bind_eq_ok_iff.1 h
      rw [addTransitions, addTransition_addState hfirst, Error.ok_bind]
      exact ih hrest

/-- States without edges, which accept or not as the list says. -/
def bare (alphabet : Alphabet) (accepting : List Bool) : Dfa :=
  accepting.foldl addState (withAlphabet alphabet)

theorem bare_concat (alphabet : Alphabet) (accepting : List Bool) (b : Bool) :
    bare alphabet (accepting ++ [b]) = (bare alphabet accepting).addState b :=
  List.foldl_concat ..

theorem numStates_bare (alphabet : Alphabet) (accepting : List Bool) :
    (bare alphabet accepting).numStates = accepting.length := by
  induction accepting using List.reverseRecOn with
  | nil => rfl
  | append_singleton accepting b ih => rw [bare_concat, numStates_addState, ih]; simp

theorem transition_bare (alphabet : Alphabet) (accepting : List Bool) (s : Nat) (c : Char) :
    (bare alphabet accepting).transition s c = none := by
  induction accepting using List.reverseRecOn with
  | nil => rfl
  | append_singleton accepting b ih => rw [bare_concat, transition_addState, ih]

/-- The edges of rows, each of which belongs to the state with its number. -/
def rowEdges (rows : List (List (Char × Nat))) : List (Nat × Char × Nat) :=
  rows.zipIdx.flatMap fun (row, source) => row.map fun (c, target) => (source, c, target)

theorem rowEdges_concat (rows : List (List (Char × Nat))) (row : List (Char × Nat)) :
    rowEdges (rows ++ [row]) =
      rowEdges rows ++ row.map fun (c, target) => (rows.length, c, target) := by
  simp [rowEdges, List.zipIdx_append]

theorem mem_rowEdges_iff {rows : List (List (Char × Nat))} {s t : Nat} {c : Char} :
    (s, c, t) ∈ rowEdges rows ↔ ∃ row, rows[s]? = some row ∧ (c, t) ∈ row := by
  -- Whether states accept makes no difference to edges.
  have marked := @mem_rowEdges (rows.map fun row => (false, row)) s c t
  rw [List.zipIdx_map, List.flatMap_map, List.getElem?_map] at marked
  refine Iff.trans marked ?_
  simp

theorem source_lt_of_mem_rowEdges {rows : List (List (Char × Nat))} {s t : Nat} {c : Char}
    (h : (s, c, t) ∈ rowEdges rows) : s < rows.length := by
  obtain ⟨row, hrow, -⟩ := mem_rowEdges_iff.1 h
  exact (List.getElem?_eq_some_iff.1 hrow).1

/-- Rows are laid out by adding their edges to the bare states. -/
theorem ofRows_zip (alphabet : Alphabet) {accepting : List Bool}
    {rows : List (List (Char × Nat))} (hlen : accepting.length = rows.length) :
    ofRows alphabet (accepting.zip rows) =
      (bare alphabet accepting).addTransitions (rowEdges rows) := by
  have states : (accepting.zip rows).foldl (fun dfa row => dfa.addState row.1)
      (withAlphabet alphabet) = bare alphabet accepting := by
    rw [← List.foldl_map (f := Prod.fst) (g := addState), List.map_fst_zip hlen.le]
    rfl
  rw [ofRows, states]
  -- The rows are the second halves of what is laid out.
  conv_rhs => rw [rowEdges, ← List.map_snd_zip hlen.ge, List.zipIdx_map, List.flatMap_map]
  rfl

end Dfa

namespace TransitionSystem

open Dfa (bare rowEdges)

variable {σ : Type}

/-! ### Making the automaton while surveying -/

/-- What is known of a system, and the automaton made of it so far. -/
structure Site (σ : Type) where
  /-- The points found, by number. -/
  found : Array σ
  /-- The numbers of the points found, by key. -/
  numbers : Std.ExtTreeMap (List Nat) Nat
  /-- A state for every point found, with the edges that have been followed. -/
  dfa : Dfa

namespace Site

/-- Nothing is known, and there is no state. -/
def empty (alphabet : Alphabet) : Site σ := ⟨#[], ∅, .withAlphabet alphabet⟩

/-- The number of a point.  A new point gets a state, unless the limit is reached already. -/
def number (key : σ → List Nat) (accepting : σ → Bool) (limit : Nat) (site : Site σ) (point : σ) :
    Except Error (Nat × Site σ) :=
  match site.numbers[key point]? with
  | some n => .ok (n, site)
  | none =>
    let n := site.dfa.numStates
    if limit < n + 1 then .error (.stateLimitExceeded (n + 1) limit)
    else .ok (n, {
      found := site.found.push point
      numbers := site.numbers.insert (key point) n
      dfa := site.dfa.addState (accepting point) })

/-- Follows edges of the point with the number `source`, and adds each as soon as its target has a
number. -/
def row (key : σ → List Nat) (accepting : σ → Bool) (limit source : Nat) (site : Site σ) :
    List (Char × σ) → Except Error (Site σ)
  | [] => .ok site
  | (c, target) :: rest => do
    let (n, site) ← site.number key accepting limit target
    let dfa ← site.dfa.addTransition source c n
    row key accepting limit source { site with dfa := dfa } rest

end Site

namespace Stepwise

/-- Settles up to `rounds` more points from the number `current` on. -/
def settle (system : TransitionSystem σ) (accepting : σ → Bool) (limit : Nat) :
    Nat → Nat → Site σ → Except Error (Site σ)
  | 0, _, site => .ok site
  | rounds + 1, current, site =>
    match site.found[current]? with
    | none => .ok site
    | some point => do
      let site ← site.row system.key accepting limit current (system.edges point)
      settle system accepting limit rounds (current + 1) site

/-- The automaton of what can be met from the start, before missing edges are looked for. -/
def build (system : TransitionSystem σ) (alphabet : Alphabet) (accepting : σ → Bool)
    (limit : Nat) : Except Error (Site σ) := do
  let (_, site) ← (Site.empty alphabet).number system.key accepting limit system.start
  settle system accepting limit limit 0 site

/-- A system laid out while it is surveyed.  Whether there is room for a dead state is asked
before it is added. -/
def determinize (system : TransitionSystem σ) (alphabet : Alphabet) (accepting : σ → Bool)
    (limit : Nat) : Except Error Dfa := do
  let site ← build system alphabet accepting limit
  let partly := site.dfa
  if !partly.isComplete && limit < partly.numStates + 1 then
    throw (.stateLimitExceeded (partly.numStates + 1) limit)
  let (whole, dead) ← partly.complete
  let known := system.keys site.found
  return whole.setMapping <|
    match dead with
    | none => known
    | some dead => known.insert dead []

end Stepwise

/-! ### In step with the survey -/

variable {system : TransitionSystem σ} {alphabet : Alphabet} {accepting : σ → Bool}
  {limit : Nat} {survey : Survey σ} {site : Site σ} {edges : List (Nat × Char × Nat)}

/-- `Made alphabet accepting limit survey edges site`: the site knows what the survey knows, and
its automaton is made of a state for every point found and of `edges`. -/
structure Made (alphabet : Alphabet) (accepting : σ → Bool) (limit : Nat) (survey : Survey σ)
    (edges : List (Nat × Char × Nat)) (site : Site σ) : Prop where
  found_eq : site.found = survey.found
  numbers_eq : site.numbers = survey.numbers
  size_le : survey.found.size ≤ limit
  number_lt : ∀ (k : List Nat) (n : Nat), survey.numbers[k]? = some n → n < survey.found.size
  dfa_eq : (bare alphabet (survey.found.toList.map accepting)).addTransitions edges =
    .ok site.dfa

namespace Made

theorem empty (alphabet : Alphabet) (accepting : σ → Bool) (limit : Nat) :
    Made alphabet accepting limit Survey.empty [] (Site.empty alphabet) where
  found_eq := rfl
  numbers_eq := rfl
  size_le := Nat.zero_le _
  number_lt k n h := by simp [Survey.empty] at h
  dfa_eq := rfl

theorem numStates_eq (made : Made alphabet accepting limit survey edges site) :
    site.dfa.numStates = survey.found.size := by
  rw [Dfa.numStates_of_addTransitions made.dfa_eq, Dfa.numStates_bare, List.length_map,
    Array.length_toList]

/-- The automaton has no edges but those that it is made of. -/
theorem mem_of_transition (made : Made alphabet accepting limit survey edges site) {s t : Nat}
    {c : Char} (h : site.dfa.transition s c = some t) : (s, c, t) ∈ edges := by
  refine (Dfa.mem_of_addTransitions made.dfa_eq h).resolve_left fun hbare => ?_
  rw [Dfa.transition_bare] at hbare
  cases hbare

/-- A point that is found gets a state, and the edges that were added stay. -/
theorem push (made : Made alphabet accepting limit survey edges site)
    (room : survey.found.size < limit) (key : List Nat) (point : σ) :
    Made alphabet accepting limit
      { survey with
        found := survey.found.push point
        numbers := survey.numbers.insert key survey.found.size } edges
      { found := site.found.push point
        numbers := site.numbers.insert key survey.found.size
        dfa := site.dfa.addState (accepting point) } where
  found_eq := by rw [made.found_eq]
  numbers_eq := by rw [made.numbers_eq]
  size_le := by
    rw [Array.size_push]
    exact room
  number_lt k n h := by
    rw [Std.ExtTreeMap.getElem?_insert] at h
    rw [Array.size_push]
    split at h
    · cases h
      exact Nat.lt_succ_self _
    · exact (made.number_lt k n h).trans (Nat.lt_succ_self _)
  dfa_eq := by
    rw [Array.toList_push, List.map_append, List.map_cons, List.map_nil, Dfa.bare_concat]
    exact Dfa.addTransitions_addState made.dfa_eq _

/-- **An edge is added if it is the first of its state under its symbol.**  Its ends have to be
there, which the survey knows. -/
theorem addTransition (made : Made alphabet accepting limit survey edges site) {s t : Nat}
    {c : Char} (hs : s < survey.found.size) (ht : t < survey.found.size)
    (first : ∀ u, (s, c, u) ∉ edges) :
    ∃ dfa, site.dfa.addTransition s c t = .ok dfa ∧
      Made alphabet accepting limit survey (edges ++ [(s, c, t)]) { site with dfa := dfa } := by
  have inside : ¬ (site.dfa.numStates ≤ s ∨ site.dfa.numStates ≤ t) := by
    rw [made.numStates_eq]
    omega
  have absent : site.dfa.transition s c = none :=
    Option.eq_none_iff_forall_ne_some.2 fun u hu => first u (made.mem_of_transition hu)
  have step : site.dfa.addTransition s c t = .ok (site.dfa.file s c t) := by
    rw [Dfa.addTransition, if_neg inside, absent]
  refine ⟨_, step, made.found_eq, made.numbers_eq, made.size_le, made.number_lt, ?_⟩
  -- The history grows by one edge at its end.
  rw [Dfa.addTransitions_append, made.dfa_eq, Error.ok_bind, Dfa.addTransitions, step]
  rfl

/-- A point is numbered as in the survey, and one that is new gets a state.  If there is no room,
both stop. -/
theorem number_cases (made : Made alphabet accepting limit survey edges site)
    (key : σ → List Nat) (point : σ) :
    (survey.number key limit point = none ∧ site.number key accepting limit point =
      .error (.stateLimitExceeded (limit + 1) limit)) ∨
    ∃ n survey' site', survey.number key limit point = some (n, survey') ∧
      site.number key accepting limit point = .ok (n, site') ∧
      Made alphabet accepting limit survey' edges site' ∧
      survey'.rows = survey.rows ∧ survey.found.size ≤ survey'.found.size ∧
      n < survey'.found.size := by
  have hsize := made.size_le
  rw [Survey.number, Site.number, made.numbers_eq, made.numStates_eq]
  cases hnumber : survey.numbers[key point]? with
  | some n =>
      exact .inr ⟨n, survey, site, rfl, rfl, made, rfl, le_rfl, made.number_lt _ _ hnumber⟩
  | none =>
      by_cases room : survey.found.size < limit
      · refine .inr ⟨_, _, _, if_pos room, if_neg (by omega), ?_, rfl, ?_, ?_⟩
        · exact made.numbers_eq ▸ made.push room (key point) point
        · simp
        · simp
      · -- The message counts the state that there is no room for.
        have full : survey.found.size = limit := by omega
        refine .inl ⟨if_neg room, ?_⟩
        rw [full]
        exact if_pos (Nat.lt_succ_self _)

/-- **The edges of a point are added, or the ceiling is met**, as in the survey. -/
theorem row_cases (made : Made alphabet accepting limit survey edges site) (key : σ → List Nat)
    {source : Nat} (hsource : source < survey.found.size) {list : List (Char × σ)}
    (sorted : list.Pairwise fun e e' => e.1 < e'.1)
    (first : ∀ e ∈ list, ∀ t, (source, e.1, t) ∉ edges) :
    (survey.row key limit list = none ∧ site.row key accepting limit source list =
      .error (.stateLimitExceeded (limit + 1) limit)) ∨
    ∃ row survey' site', survey.row key limit list = some (row, survey') ∧
      site.row key accepting limit source list = .ok site' ∧
      Made alphabet accepting limit survey'
        (edges ++ row.map fun (c, target) => (source, c, target)) site' ∧
      survey'.rows = survey.rows ∧ survey.found.size ≤ survey'.found.size := by
  induction list generalizing survey site edges with
  | nil => exact .inr ⟨[], survey, site, rfl, rfl, by simpa using made, rfl, le_rfl⟩
  | cons e list ih =>
      obtain ⟨c, target⟩ := e
      obtain ⟨hlt, hsorted⟩ := List.pairwise_cons.1 sorted
      rw [Survey.row, Site.row]
      rcases made.number_cases key target with
        ⟨hsurvey, hsite⟩ | ⟨n, survey₁, site₁, hsurvey, hsite, made₁, hrows₁, hle₁, hn⟩
      · rw [hsurvey, hsite]
        exact .inl ⟨rfl, rfl⟩
      · obtain ⟨dfa, hdfa, made₂⟩ := made₁.addTransition (hsource.trans_le hle₁) hn
          (first _ List.mem_cons_self)
        simp only [hsurvey, hsite, Error.ok_bind, hdfa]
        -- The symbols of a point ascend, so the edge just added is under an earlier one.
        have first' : ∀ e ∈ list, ∀ t, (source, e.1, t) ∉ edges ++ [(source, c, n)] := by
          intro e he t hmem
          rcases List.mem_append.1 hmem with hold | hnew
          · exact first e (List.mem_cons_of_mem _ he) t hold
          · have hsymbol : e.1 = c ∧ t = n := by simpa using hnew
            exact absurd hsymbol.1 (Char.ne_of_lt (hlt e he)).symm
        rcases ih made₂ (hsource.trans_le hle₁) hsorted first' with
          ⟨hrow, hrow'⟩ | ⟨row, survey', site', hrow, hrow', made', hrows, hle⟩
        · rw [hrow, hrow']
          exact .inl ⟨rfl, rfl⟩
        · rw [hrow, hrow']
          refine .inr ⟨_, survey', site', rfl, rfl, ?_, hrows.trans hrows₁, hle₁.trans hle⟩
          simpa using made'

end Made

namespace Stepwise

/-- Rounds of one and of the other, as many as are left.  Afterwards all points are settled, or
both have stopped. -/
theorem settle_cases (sorted : ∀ p, (system.edges p).Pairwise fun e e' => e.1 < e'.1)
    {rounds : Nat} (made : Made alphabet accepting limit survey (rowEdges survey.rows.toList) site)
    (hrows : survey.rows.size ≤ survey.found.size)
    (hrounds : limit ≤ survey.rows.size + rounds) :
    (system.settle limit rounds survey = none ∧
      settle system accepting limit rounds survey.rows.size site =
        .error (.stateLimitExceeded (limit + 1) limit)) ∨
    ∃ survey' site', system.settle limit rounds survey = some survey' ∧
      settle system accepting limit rounds survey.rows.size site = .ok site' ∧
      Made alphabet accepting limit survey' (rowEdges survey'.rows.toList) site' ∧
      survey'.rows.size = survey'.found.size := by
  induction rounds generalizing survey site with
  | zero =>
      -- The rounds suffice for as many points as the limit allows.
      have := made.size_le
      exact .inr ⟨survey, site, rfl, rfl, made, by omega⟩
  | succ rounds ih =>
      rw [TransitionSystem.settle, settle, made.found_eq]
      cases hpoint : survey.found[survey.rows.size]? with
      | none =>
          have := Array.getElem?_eq_none_iff.1 hpoint
          exact .inr ⟨survey, site, rfl, rfl, made, by omega⟩
      | some point =>
          have hlt := (Array.getElem?_eq_some_iff.1 hpoint).1
          -- Only points that are settled have edges yet.
          have first : ∀ e ∈ system.edges point, ∀ t,
              (survey.rows.size, e.1, t) ∉ rowEdges survey.rows.toList :=
            fun _ _ _ hmem => Nat.lt_irrefl _ (Dfa.source_lt_of_mem_rowEdges hmem)
          rcases made.row_cases system.key hlt (sorted point) first with
            ⟨hrow, hrow'⟩ | ⟨row, survey₁, site₁, hrow, hrow', made₁, hrows₁, hle⟩
          · simp only [hrow, hrow']
            exact .inl ⟨trivial, rfl⟩
          · have size : (survey₁.rows.push row).size = survey.rows.size + 1 := by
              rw [Array.size_push, hrows₁]
            have next : Made alphabet accepting limit
                { survey₁ with rows := survey₁.rows.push row }
                (rowEdges (survey₁.rows.push row).toList) site₁ := by
              refine ⟨made₁.found_eq, made₁.numbers_eq, made₁.size_le, made₁.number_lt, ?_⟩
              rw [Array.toList_push, Dfa.rowEdges_concat, hrows₁]
              exact made₁.dfa_eq
            simp only [hrow, hrow', Error.ok_bind, ← size]
            refine ih next ?_ ?_
            · rw [size]
              exact hlt.trans_le hle
            · rw [size]
              omega

/-- **A system can be laid out at once or step by step.**  The edges of each point have to be in
order, as those of sets of active states are. -/
theorem determinize_eq (sorted : ∀ p, (system.edges p).Pairwise fun e e' => e.1 < e'.1)
    (alphabet : Alphabet) (accepting : σ → Bool) (limit : Nat) :
    determinize system alphabet accepting limit =
      system.determinize alphabet accepting limit := by
  rw [determinize, TransitionSystem.determinize, build, survey]
  rcases (Made.empty alphabet accepting limit).number_cases system.key system.start with
    ⟨hsurvey, hsite⟩ | ⟨n, survey₁, site₁, hsurvey, hsite, made₁, hrows₁, -, -⟩
  · rw [hsurvey, hsite]
    rfl
  · have norows : survey₁.rows = #[] := hrows₁
    have made : Made alphabet accepting limit survey₁ (rowEdges survey₁.rows.toList) site₁ := by
      rw [norows]
      exact made₁
    have settled := settle_cases sorted made (by simp [norows])
      (Nat.le_add_left limit _)
    simp only [norows, Array.size_empty] at settled
    simp only [hsurvey, hsite, Error.ok_bind]
    rcases settled with ⟨hsurvey', hsite'⟩ | ⟨survey', site', hsurvey', hsite', made', hsize⟩
    · rw [hsurvey', hsite']
      rfl
    · have laid : Dfa.ofRows alphabet
          ((survey'.found.toList.map accepting).zip survey'.rows.toList) = .ok site'.dfa := by
        rw [Dfa.ofRows_zip alphabet (by simp [hsize])]
        exact made'.dfa_eq
      simp only [hsurvey', hsite', laid, Error.ok_bind]
      -- From here on both read the same: completion, and the mapping by the points found.
      obtain ⟨found, numbers, dfa⟩ := site'
      obtain rfl : found = survey'.found := made'.found_eq
      rfl

end Stepwise

end TransitionSystem

/-! ### Sets of active states -/

/-- The deterministic automaton of a nondeterministic one, made while sets of active states are
met. -/
def Strategy.determinizeStepwise (strategy : Strategy) (nfa : Nfa) (limit : Nat) :
    Except Error Dfa :=
  TransitionSystem.Stepwise.determinize (nfa.powersetIn strategy.Store) nfa.alphabet
    nfa.acceptingIn limit

theorem Nfa.powersetIn_edges_sorted (S : Type) [StateStore S] [LawfulStateStore S] (nfa : Nfa)
    (active : S) : ((nfa.powersetIn S).edges active).Pairwise fun e e' => e.1 < e'.1 := by
  refine TransitionSystem.sorted_filterMap (fun c e h => ?_) nfa.alphabet.pairwise_toList
  by_cases hempty : StateStore.isEmpty (nfa.advanceIn active c) = true
  · simp only [hempty, if_true] at h
    cases h
  · simp only [hempty] at h
    cases h
    rfl

/-- **The powerset can be laid out while it is surveyed**, for any nondeterministic automaton. -/
theorem Strategy.determinizeStepwise_eq (strategy : Strategy) (nfa : Nfa) (limit : Nat) :
    strategy.determinizeStepwise nfa limit = strategy.determinize nfa limit :=
  TransitionSystem.Stepwise.determinize_eq (nfa.powersetIn_edges_sorted strategy.Store) _ _ _

end PatternAutomata
