import PatternAutomata.Nfa.Builder
import PatternAutomata.Proofs.Dfa.Completion
import PatternAutomata.Proofs.Error
import PatternAutomata.Proofs.Nfa.Edges
import PatternAutomata.Proofs.Nfa.OfDfa

/-!
# Operators step by step

The operators on automata can be carried out in the steps of a builder: a state or a whole copy is
added if the capacity allows it, and an edge if both its ends are there.  Every edge that an
operator adds has ends that are there, so nothing but the capacity ever refuses a step, and step
by step is the same as at once (`Nfa.Stepwise.union_eq` and so on).

## Two descriptions of one operator

An operator is defined by the rows of its result, which are put together from copies that are
moved up.  Proofs need this form, but it hides that every edge is added by a step which may be
refused.  Here the steps are spelled out, with each check where it is made: a state is numbered
when it is added, a copy is made edge by edge, and the ends of the edges are compared with the
states that are there by then.

## Why the two agree

A copy that is made edge by edge has the rows of the operand, moved up, if the operand is tidy
(`Nfa.Builder.embed_eq`); and edges whose ends are there are never refused
(`Nfa.Builder.addEdges_ok`).  What remains is to compare arrays: two copies between two new
states, with a fork in front.
-/

namespace PatternAutomata

namespace Nfa

/-! ### Longer steps of a builder -/

namespace Builder

variable {b : Builder} {edges : List Edge} {a : Nfa}

/-- Adds edges, one after another.  The first edge that is refused ends it. -/
def addEdges (b : Builder) (edges : List Edge) : Except Error Builder :=
  edges.foldlM (fun b e => b.addEdge e.1 e.2.1 e.2.2) b

/-- Adds a copy of an automaton behind the states that are there.  The capacity is asked before
any edge is added. -/
def embed (strategy : Strategy) (b : Builder) (a : Nfa) : Except Error Builder := do
  strategy.check (b.numStates + a.numStates)
  let room : Builder := { b with rows := b.rows ++ Array.replicate a.numStates .empty }
  let filled ← room.addEdges (a.edges.map (Edge.shift b.numStates))
  return { filled with alphabet := filled.alphabet ∪ a.alphabet }

/-- What has been made, with a start state and accepting states. -/
def finish (b : Builder) (start : Nat) (accepting : List Nat) : Nfa where
  rows := b.rows
  start := start
  accepting := .ofList accepting
  alphabet := b.alphabet

theorem checkState_of_lt {state : Nat} (h : state < b.numStates) : b.checkState state = .ok () :=
  if_pos h

/-- An edge whose ends are there is added.  The alphabet gets its symbol, if it has one. -/
theorem addEdge_ok {source target : Nat} (hsource : source < b.numStates)
    (htarget : target < b.numStates) (label : Label) :
    ∃ alphabet : Alphabet, b.addEdge source label target = .ok { b with
        rows := b.rows.modify source fun row => row.addEdge label target
        alphabet := alphabet } ∧
      ∀ c, c ∈ alphabet ↔ c ∈ b.alphabet ∨ label = .symbol c := by
  unfold addEdge
  rw [checkState_of_lt hsource, Error.ok_bind, checkState_of_lt htarget]
  refine ⟨_, rfl, fun c => ?_⟩
  cases label with
  | epsilon => simp
  | symbol d => simp [Std.ExtTreeSet.mem_insert, or_comm]

/-- **Edges whose ends are there are added**, all of them, as an edge does not take away any
state. -/
theorem addEdges_ok (h : ∀ e ∈ edges, e.1 < b.numStates ∧ e.2.2 < b.numStates) :
    ∃ alphabet : Alphabet, b.addEdges edges = .ok { b with
        rows := addAll b.rows edges
        alphabet := alphabet } ∧
      ∀ c, c ∈ alphabet ↔ c ∈ b.alphabet ∨ ∃ e ∈ edges, e.2.1 = .symbol c := by
  induction edges generalizing b with
  | nil => exact ⟨b.alphabet, rfl, fun c => by simp⟩
  | cons e edges ih =>
      obtain ⟨s, l, t⟩ := e
      obtain ⟨hsource, htarget⟩ := h _ List.mem_cons_self
      obtain ⟨symbols, hstep, hsymbols⟩ := addEdge_ok hsource htarget l
      have inside : ∀ e ∈ edges, e.1 < (b.rows.modify s fun row => row.addEdge l t).size ∧
          e.2.2 < (b.rows.modify s fun row => row.addEdge l t).size := by
        rw [Array.size_modify]
        exact fun e he => h e (List.mem_cons_of_mem _ he)
      obtain ⟨alphabet, hok, hmem⟩ := ih (b := { b with
        rows := b.rows.modify s fun row => row.addEdge l t
        alphabet := symbols }) inside
      refine ⟨alphabet, ?_, fun c => ?_⟩
      · rw [addEdges, List.foldlM_cons, hstep]
        exact hok
      · simp only [hmem, hsymbols, List.mem_cons, exists_eq_or_imp, or_assoc]

/-- Epsilon edges whose ends are there are added, and leave the alphabet as it is. -/
theorem addEdges_epsilon (h : ∀ e ∈ edges, e.1 < b.numStates ∧ e.2.2 < b.numStates)
    (silent : ∀ e ∈ edges, e.2.1 = .epsilon) :
    b.addEdges edges = .ok { b with rows := addAll b.rows edges } := by
  obtain ⟨alphabet, hok, hmem⟩ := addEdges_ok h
  have same : alphabet = b.alphabet := by
    ext c
    rw [hmem]
    refine or_iff_left ?_
    rintro ⟨e, he, hc⟩
    rw [silent e he] at hc
    cases hc
  rw [hok, same]

/-- **A copy is refused by the capacity, or it is made.**  The operand has to be tidy, since
otherwise its rows could not be told from its edges. -/
theorem embed_eq (strategy : Strategy) (b : Builder) (wf : a.WellFormed) (tidy : a.Tidy) :
    b.embed strategy a = (do
      strategy.check (b.numStates + a.numStates)
      return { b with
        rows := b.rows ++ a.shiftedRows b.numStates
        alphabet := b.alphabet ∪ a.alphabet }) := by
  have room : (b.rows ++ Array.replicate a.numStates Row.empty).size =
      b.numStates + a.numStates := by
    rw [Array.size_append, Array.size_replicate]
    rfl
  have inside : ∀ e ∈ a.edges.map (Edge.shift b.numStates),
      e.1 < (b.rows ++ Array.replicate a.numStates Row.empty).size ∧
        e.2.2 < (b.rows ++ Array.replicate a.numStates Row.empty).size := by
    intro e he
    rw [room]
    obtain ⟨e, hmem, rfl⟩ := List.mem_map.1 he
    have hleads := tidy.leads hmem
    exact ⟨Nat.add_lt_add_left hleads.lt _, Nat.add_lt_add_left (wf.lt_of_leads hleads) _⟩
  obtain ⟨alphabet, hok, hmem⟩ := @addEdges_ok
    { b with rows := b.rows ++ Array.replicate a.numStates Row.empty } _ inside
  -- The edges of the copy bring no symbols that its alphabet does not.
  have symbols : alphabet ∪ a.alphabet = b.alphabet ∪ a.alphabet := by
    ext c
    rw [Std.ExtTreeSet.mem_union_iff, Std.ExtTreeSet.mem_union_iff, hmem, or_assoc]
    refine or_congr_right (or_iff_right_of_imp ?_)
    rintro ⟨_, he, hc⟩
    obtain ⟨e, hmem, rfl⟩ := List.mem_map.1 he
    have hleads := tidy.leads hmem
    exact wf.mem_alphabet_of_leads (hc ▸ hleads)
  have rows := addAll_edges tidy b.rows
  rw [embed]
  simp only [hok, Error.ok_bind, symbols]
  rw [show b.numStates = b.rows.size from rfl, rows]

end Builder

/-! ### Tidy rows -/

variable {a b : Nfa} {rows more : Array Row} {edges : List Edge}

/-- Edges out of the first rows are added there, and the rows behind stay as they are. -/
theorem addAll_append (h : ∀ e ∈ edges, e.1 < rows.size) :
    addAll (rows ++ more) edges = addAll rows edges ++ more := by
  refine Array.ext_getElem? fun s => ?_
  rw [getElem?_addAll]
  rcases Nat.lt_or_ge s rows.size with hs | hs
  · rw [Array.getElem?_append_left hs, Array.getElem?_append_left (by rwa [size_addAll]),
      getElem?_addAll]
  · have none : edges.filter (·.1 = s) = [] := List.filter_eq_nil_iff.2 fun e he => by
      have := h e he
      rw [decide_eq_true_eq]
      omega
    rw [Array.getElem?_append_right hs, Array.getElem?_append_right (by rwa [size_addAll]),
      size_addAll, none]
    exact Option.map_id'

/-- Two epsilon edges out of a state without edges make it a fork. -/
theorem addAll_fork (x y : Nat) :
    addAll #[.empty] [(0, .epsilon, x), (0, .epsilon, y)] = #[fork [x, y]] := by
  have targets : (∅ : StateSet) ∪ StateSet.ofList [x, y] = StateSet.ofList [x, y] := by
    ext t
    simp [Std.ExtTreeSet.mem_union_iff]
  have forks : Row.empty.addAll [(.epsilon, x), (.epsilon, y)] = fork [x, y] := by
    rw [Row.addAll_epsilon (by simp)]
    exact congrArg (Row.mk []) targets
  refine Array.ext_getElem? fun s => ?_
  rw [getElem?_addAll]
  cases s with
  | zero => exact congrArg some forks
  | succ s => rfl

/-- Copies between two new states, the first of which becomes a fork.  Every operator with new
states ends in this situation. -/
theorem Builder.addEdges_between {copies : Array Row} {alphabet : Alphabet} {x y : Nat}
    (hx : x < copies.size + 2) (hy : y < copies.size + 2)
    (links : ∀ e ∈ edges, e.1 < copies.size + 2 ∧ e.2.2 < copies.size + 2)
    (silent : ∀ e ∈ edges, e.2.1 = .epsilon) :
    Builder.addEdges ⟨(#[Row.empty] ++ copies).push .empty, none, ∅, alphabet⟩
      ([(0, .epsilon, x), (0, .epsilon, y)] ++ edges) =
    .ok ⟨addAll (#[fork [x, y]] ++ copies ++ #[.empty]) edges, none, ∅, alphabet⟩ := by
  have size : ((#[Row.empty] ++ copies).push .empty).size = copies.size + 2 := by
    rw [Array.size_push, Array.size_append]
    exact congrArg (· + 1) (Nat.add_comm ..)
  have first : ∀ e ∈ [(0, Label.epsilon, x), (0, .epsilon, y)],
      e.1 < 1 ∧ e.2.2 < copies.size + 2 ∧ e.2.1 = .epsilon := by
    simp [hx, hy]
  -- the first two edges make the fork, and the others are added to it and the copies
  have rows : addAll ((#[Row.empty] ++ copies).push .empty)
      ([(0, .epsilon, x), (0, .epsilon, y)] ++ edges) =
        addAll (#[fork [x, y]] ++ copies ++ #[.empty]) edges := by
    have forked := @addAll_append #[Row.empty] (copies ++ #[.empty]) _
      fun e he => (first e he).1
    rw [addAll_fork, ← Array.append_assoc, ← Array.append_assoc] at forked
    rw [← forked, Array.push_eq_append]
    exact List.foldl_append
  rw [Builder.addEdges_epsilon, rows]
  · intro e he
    show e.1 < Array.size _ ∧ e.2.2 < Array.size _
    rw [size]
    rcases List.mem_append.1 he with he | he
    · have := first e he
      omega
    · exact links e he
  · intro e he
    rcases List.mem_append.1 he with he | he
    · exact (first e he).2.2
    · exact silent e he

/-- A copy that is not moved is the automaton itself, as for the first operand of a
concatenation. -/
theorem shiftedRows_zero (a : Nfa) : a.shiftedRows 0 = a.rows := by
  have targets : ∀ targets : StateSet, targets.shift 0 = targets := by
    intro targets
    ext t
    simp [StateSet.mem_shift]
  have row : Row.shift 0 = id := by
    funext row
    simp [Row.shift, targets]
  rw [shiftedRows, row, Array.map_id]

theorem shiftedAccepting_zero (a : Nfa) : a.shiftedAccepting 0 = a.accepting.toList := by
  simp [shiftedAccepting]

/-! ### The operators step by step -/

namespace Stepwise

/-- The union of two automata: a new start, the two copies, a new accepting state, and then the
edges. -/
def union (strategy : Strategy) (a b : Nfa) : Except Error Nfa := do
  let w ← Builder.empty.addState strategy
  let left := w.numStates
  let w ← w.embed strategy a
  let right := w.numStates
  let w ← w.embed strategy b
  let final := w.numStates
  let w ← w.addState strategy
  let w ← w.addEdges ([(0, .epsilon, left + a.start), (0, .epsilon, right + b.start)] ++
    (a.shiftedAccepting left ++ b.shiftedAccepting right).map fun s => (s, .epsilon, final))
  return w.finish 0 [final]

/-- The concatenation of two automata, with edges from the one copy to the other. -/
def concat (strategy : Strategy) (a b : Nfa) : Except Error Nfa := do
  let w ← Builder.empty.embed strategy a
  let right := w.numStates
  let w ← w.embed strategy b
  let w ← w.addEdges ((a.shiftedAccepting 0).map fun s => (s, .epsilon, right + b.start))
  return w.finish (0 + a.start) (b.shiftedAccepting right)

/-- A copy of an automaton between two new states, with edges to enter and to skip it and others
out of its accepting states. -/
def around (strategy : Strategy) (a : Nfa) (exits : Nat → Nat → List Nat) :
    Except Error Nfa := do
  let w ← Builder.empty.addState strategy
  let inner := w.numStates
  let w ← w.embed strategy a
  let final := w.numStates
  let w ← w.addState strategy
  let w ← w.addEdges ([(0, .epsilon, inner + a.start), (0, .epsilon, final)] ++
    (a.shiftedAccepting inner).flatMap fun s =>
      (exits (inner + a.start) final).map fun t => (s, .epsilon, t))
  return w.finish 0 [final]

/-- Any number of repetitions of an automaton: a copy may be left to its start and to the end. -/
def star (strategy : Strategy) (a : Nfa) : Except Error Nfa :=
  around strategy a fun start final => [start, final]

/-- An automaton or the word without symbols: a copy may be left to the end only. -/
def optional (strategy : Strategy) (a : Nfa) : Except Error Nfa :=
  around strategy a fun _ final => [final]

/-- One or more repetitions of an automaton.  The operand is copied twice, and each copy is
checked. -/
def plus (strategy : Strategy) (a : Nfa) : Except Error Nfa := do
  let repeated ← star strategy a
  concat strategy a repeated

/-- The states and edges of a deterministic automaton, added in the order in which it lists them. -/
def ofDfa (strategy : Strategy) (d : Dfa) : Except Error Nfa := do
  strategy.check d.numStates
  let room : Builder := ⟨Array.replicate d.numStates .empty, none, ∅, d.alphabet⟩
  let w ← room.addEdges (d.transitions.map fun e => (e.1, .symbol e.2.1, e.2.2))
  return w.finish d.start d.acceptStates

theorem ofList_singleton (s : Nat) : StateSet.ofList [s] = .singleton s := by
  ext t
  rw [StateSet.mem_ofList, StateSet.mem_singleton, List.mem_singleton]

theorem empty_union (alphabet : Alphabet) : ∅ ∪ alphabet = alphabet := by
  ext c
  rw [Std.ExtTreeSet.mem_union_iff]
  exact or_iff_right Std.ExtTreeSet.not_mem_empty

/-- The accepting states of a copy are states of the copy, so that edges may leave them. -/
theorem lt_of_mem_shiftedAccepting (wf : a.WellFormed) {offset s : Nat}
    (h : s ∈ a.shiftedAccepting offset) : s < offset + a.numStates := by
  obtain ⟨r, hr, rfl⟩ := mem_shiftedAccepting.1 h
  exact Nat.add_lt_add_left (wf.accepting_lt r hr) offset

variable {strategy : Strategy}

theorem union_eq (wfa : a.WellFormed) (wfb : b.WellFormed) (tidya : a.Tidy) (tidyb : b.Tidy) :
    union strategy a b = strategy.union a b := by
  simp only [union, Builder.addState, Strategy.union, Strategy.checkUnion,
    Strategy.checkAll_cons, Strategy.checkAll_nil, bind_assoc, pure_bind]
  refine bind_congr fun _ => ?_
  simp only [Builder.embed_eq _ _ wfa tidya, Builder.embed_eq _ _ wfb tidyb, bind_assoc,
    pure_bind, Builder.numStates, Builder.empty, Array.size_push, Array.size_append,
    size_shiftedRows, Array.size_empty, Nat.zero_add]
  refine bind_congr fun _ => bind_congr fun _ => bind_congr fun _ => ?_
  -- The checks are gone, and what is left is about the automata: two copies in a row stand
  -- between the new states as one would.
  have copies : #[].push Row.empty ++ a.shiftedRows 1 ++ b.shiftedRows (1 + a.numStates) =
      #[Row.empty] ++ (a.shiftedRows 1 ++ b.shiftedRows (1 + a.numStates)) :=
    Array.append_assoc
  have size : (a.shiftedRows 1 ++ b.shiftedRows (1 + a.numStates)).size =
      a.numStates + b.numStates := by
    rw [Array.size_append, size_shiftedRows, size_shiftedRows]
  have hstart := wfa.start_lt
  have hstart' := wfb.start_lt
  have links : ∀ e ∈ (a.shiftedAccepting 1 ++ b.shiftedAccepting (1 + a.numStates)).map
      fun s => ((s, .epsilon, 1 + a.numStates + b.numStates) : Edge),
      (e.1 < a.numStates + b.numStates + 2 ∧ e.2.2 < a.numStates + b.numStates + 2) ∧
        e.2.1 = .epsilon := by
    intro e he
    obtain ⟨s, hs, rfl⟩ := List.mem_map.1 he
    refine ⟨⟨?_, show 1 + a.numStates + b.numStates < _ by omega⟩, rfl⟩
    rcases List.mem_append.1 hs with hs | hs
    · have := lt_of_mem_shiftedAccepting wfa hs
      omega
    · have := lt_of_mem_shiftedAccepting wfb hs
      omega
  rw [copies, Builder.addEdges_between (by omega) (by omega)
    (fun e he => size ▸ (links e he).1) fun e he => (links e he).2, Error.ok_bind,
    ← link_eq_addAll, empty_union, ← Array.append_assoc]
  exact congrArg (fun accepting => Except.ok (Nfa.mk _ 0 accepting _)) (ofList_singleton _)

theorem concat_eq (wfa : a.WellFormed) (wfb : b.WellFormed) (tidya : a.Tidy) (tidyb : b.Tidy) :
    concat strategy a b = strategy.concat a b := by
  simp only [concat, Strategy.concat, Strategy.checkConcat, Strategy.checkAll_cons,
    Strategy.checkAll_nil, Builder.embed_eq _ _ wfa tidya, Builder.embed_eq _ _ wfb tidyb,
    bind_assoc, pure_bind, Builder.numStates, Builder.empty, Array.size_append,
    size_shiftedRows, Array.size_empty, Nat.zero_add]
  refine bind_congr fun _ => bind_congr fun _ => ?_
  rw [shiftedRows_zero, shiftedAccepting_zero, Array.empty_append, empty_union]
  have hstart := wfb.start_lt
  have inside : ∀ e ∈ a.accepting.toList.map
      fun s => ((s, .epsilon, a.numStates + b.start) : Edge),
      e.1 < a.rows.size ∧ e.2.2 < a.numStates + b.numStates ∧ e.2.1 = .epsilon := by
    intro e he
    obtain ⟨s, hs, rfl⟩ := List.mem_map.1 he
    exact ⟨wfa.accepting_lt s (Std.ExtTreeSet.mem_toList.1 hs), Nat.add_lt_add_left hstart _, rfl⟩
  rw [Builder.addEdges_epsilon, Error.ok_bind, addAll_append fun e he => (inside e he).1,
    ← link_eq_addAll]
  · rfl
  · intro e he
    show _ < Array.size _ ∧ _ < Array.size _
    rw [Array.size_append, size_shiftedRows]
    exact ⟨Nat.lt_add_right _ (inside e he).1, (inside e he).2.1⟩
  · exact fun e he => (inside e he).2.2

theorem around_eq (wf : a.WellFormed) (tidy : a.Tidy) {exits : Nat → Nat → List Nat}
    (inside : ∀ t ∈ exits (1 + a.start) (1 + a.numStates), t < a.numStates + 2) :
    around strategy a exits = (do
      strategy.checkAround a.numStates
      return {
        rows := addAll
          (#[fork [1 + a.start, 1 + a.numStates]] ++ a.shiftedRows 1 ++ #[.empty])
          ((a.shiftedAccepting 1).flatMap fun s =>
            (exits (1 + a.start) (1 + a.numStates)).map fun t => (s, .epsilon, t))
        start := 0
        accepting := .singleton (1 + a.numStates)
        alphabet := a.alphabet }) := by
  simp only [around, Builder.addState, Strategy.checkAround, Strategy.checkAll_cons,
    Strategy.checkAll_nil, bind_assoc, pure_bind]
  refine bind_congr fun _ => ?_
  simp only [Builder.embed_eq _ _ wf tidy, bind_assoc, pure_bind, Builder.numStates,
    Builder.empty, Array.size_push, Array.size_append, size_shiftedRows, Array.size_empty,
    Nat.zero_add]
  refine bind_congr fun _ => bind_congr fun _ => ?_
  have hstart := wf.start_lt
  -- edges leave accepting states of the copy and end in its start or behind it, so all ends are
  -- there
  have links : ∀ e ∈ (a.shiftedAccepting 1).flatMap fun s =>
      (exits (1 + a.start) (1 + a.numStates)).map fun t => ((s, .epsilon, t) : Edge),
      (e.1 < a.numStates + 2 ∧ e.2.2 < a.numStates + 2) ∧ e.2.1 = .epsilon := by
    intro e he
    obtain ⟨s, hs, he⟩ := List.mem_flatMap.1 he
    obtain ⟨t, ht, rfl⟩ := List.mem_map.1 he
    have := lt_of_mem_shiftedAccepting wf hs
    exact ⟨⟨show s < _ by omega, inside t ht⟩, rfl⟩
  have size := size_shiftedRows a 1
  have copies : #[].push Row.empty ++ a.shiftedRows 1 = #[Row.empty] ++ a.shiftedRows 1 := rfl
  rw [copies, Builder.addEdges_between (by omega) (by omega)
    (fun e he => size ▸ (links e he).1) fun e he => (links e he).2, Error.ok_bind, empty_union]
  exact congrArg (fun accepting => Except.ok (Nfa.mk _ 0 accepting _)) (ofList_singleton _)

theorem optional_eq (wf : a.WellFormed) (tidy : a.Tidy) :
    optional strategy a = strategy.optional a := by
  have inside : ∀ t ∈ [1 + a.numStates], t < a.numStates + 2 := by
    intro t ht
    rw [List.mem_singleton.1 ht]
    omega
  rw [optional, around_eq wf tidy inside, Strategy.optional]
  refine bind_congr fun _ => ?_
  rw [Nfa.optional, link_eq_addAll, List.map_eq_flatMap]
  rfl

theorem star_eq (wf : a.WellFormed) (tidy : a.Tidy) : star strategy a = strategy.star a := by
  have hstart := wf.start_lt
  have inside : ∀ t ∈ [1 + a.start, 1 + a.numStates], t < a.numStates + 2 := by
    intro t ht
    rcases List.mem_pair.1 ht with rfl | rfl
    · omega
    · omega
  rw [star, around_eq wf tidy inside, Strategy.star]
  refine bind_congr fun _ => ?_
  -- the edges come source by source here and target by target there, but all of them are epsilon
  -- edges
  have twice : ∀ rows : Array Row, addAll rows ((a.shiftedAccepting 1).flatMap fun s =>
      [1 + a.start, 1 + a.numStates].map fun t => (s, .epsilon, t)) =
        link (link rows (a.shiftedAccepting 1) (1 + a.start)) (a.shiftedAccepting 1)
          (1 + a.numStates) := by
    intro rows
    rw [link_eq_addAll, link_eq_addAll]
    refine (addAll_epsilon_congr ?_ ?_ ?_).trans List.foldl_append
    · intro e he
      obtain ⟨s, -, he⟩ := List.mem_flatMap.1 he
      obtain ⟨t, -, rfl⟩ := List.mem_map.1 he
      rfl
    · intro e he
      rcases List.mem_append.1 he with he | he
      · obtain ⟨s, -, rfl⟩ := List.mem_map.1 he
        rfl
      · obtain ⟨s, -, rfl⟩ := List.mem_map.1 he
        rfl
    · intro e
      simp only [List.mem_flatMap, List.mem_append, List.mem_map, List.mem_cons,
        List.not_mem_nil, or_false]
      constructor
      · rintro ⟨s, hs, t, rfl | rfl, rfl⟩
        · exact Or.inl ⟨s, hs, rfl⟩
        · exact Or.inr ⟨s, hs, rfl⟩
      · rintro (⟨s, hs, rfl⟩ | ⟨s, hs, rfl⟩)
        · exact ⟨s, hs, _, Or.inl rfl, rfl⟩
        · exact ⟨s, hs, _, Or.inr rfl, rfl⟩
  simp only [twice]
  rfl

theorem plus_eq (wf : a.WellFormed) (tidy : a.Tidy) : plus strategy a = strategy.plus a := by
  rw [plus, star_eq wf tidy, Strategy.star, Strategy.plus, Strategy.checkPlus, bind_assoc,
    bind_assoc]
  refine bind_congr fun _ => ?_
  rw [pure_bind, concat_eq wf wf.star tidy tidy.star, Strategy.concat,
    (wraps_star wf).numStates_eq]
  rfl

/-! ### Deterministic automata step by step -/

theorem tidy_toNfa (d : Dfa) : d.toNfa.Tidy := by
  intro row hrow
  obtain ⟨s, -, rfl⟩ := Array.mem_map.1 hrow
  refine ⟨?_, fun m hm => ?_⟩
  · rw [Dfa.State.toRow, List.map_map]
    refine List.pairwise_map.2 (s.moves.distinct_keys_toList.imp fun h heq => h ?_)
    exact Std.LawfulEqCmp.compare_eq_iff_eq.2 heq
  · obtain ⟨e, -, rfl⟩ := List.mem_map.1 hm
    exact ⟨e.2, StateSet.mem_singleton.2 rfl⟩

/-- Seen as a nondeterministic automaton, a deterministic one has the same edges, in the same
order. -/
theorem edges_toNfa (d : Dfa) :
    d.toNfa.edges = d.transitions.map fun e => (e.1, .symbol e.2.1, e.2.2) := by
  have numbered : d.toNfa.numbered = d.numbered.map fun p => (p.1, p.2.toRow) := by
    simp [Nfa.numbered, Dfa.numbered, Dfa.toNfa, List.zipIdx_map]
  have alone : ∀ t : Nat, (StateSet.singleton t).toList = [t] := by
    intro t
    have one : (StateSet.singleton t).toList.length = 1 := by
      rw [Std.ExtTreeSet.length_toList, StateSet.singleton]
      simp [Std.ExtTreeSet.size_insert]
    obtain ⟨u, hu⟩ := List.length_eq_one_iff.1 one
    have ht : t ∈ (StateSet.singleton t).toList :=
      Std.ExtTreeSet.mem_toList.2 (StateSet.mem_singleton.2 rfl)
    rw [hu] at ht ⊢
    rw [List.mem_singleton.1 ht]
  simp only [edges_eq, numbered, List.flatMap_map, Dfa.State.toRow, alone, Dfa.transitions,
    List.map_flatMap, List.map_map]
  have silent : (d.numbered.flatMap fun p =>
      (∅ : StateSet).toList.map fun t => (p.1, Label.epsilon, t)) = [] := by
    simp
  refine (congrArg (_ ++ ·) silent).trans ((List.append_nil _).trans ?_)
  congr 1
  funext p
  exact List.map_eq_flatMap.symm

theorem ofDfa_eq {d : Dfa} (wf : d.WellFormed) : ofDfa strategy d = Nfa.ofDfa strategy d := by
  have inside : ∀ e ∈ d.toNfa.edges, (e.1 < d.numStates ∧ e.2.2 < d.numStates) ∧
      ∀ c, e.2.1 = .symbol c → c ∈ d.alphabet := by
    rw [edges_toNfa]
    intro e he
    obtain ⟨⟨s, c, t⟩, hmem, rfl⟩ := List.mem_map.1 he
    have htr := Dfa.mem_transitions.1 hmem
    refine ⟨⟨Dfa.lt_of_transition_eq_some htr, wf.target_lt htr⟩, ?_⟩
    rintro _ ⟨⟩
    exact wf.mem_alphabet htr
  -- the copy begins at the first row, so no state gets another number
  have shift_zero : Edge.shift 0 = id := by
    funext e
    simp [Edge.shift]
  have rows : addAll (Array.replicate d.numStates Row.empty) d.toNfa.edges = d.toNfa.rows := by
    have := addAll_edges (tidy_toNfa d) #[]
    rwa [Array.empty_append, Array.empty_append, Array.size_empty, shift_zero, List.map_id,
      shiftedRows_zero, d.numStates_toNfa] at this
  obtain ⟨alphabet, hok, hmem⟩ := @Builder.addEdges_ok
    ⟨Array.replicate d.numStates .empty, none, ∅, d.alphabet⟩ d.toNfa.edges fun e he => by
        show _ < Array.size _ ∧ _ < Array.size _
        rw [Array.size_replicate]
        exact (inside e he).1
  -- the symbols of the edges bring nothing new to the alphabet that the automaton declares
  have same : alphabet = d.alphabet := by
    ext c
    rw [hmem]
    refine or_iff_left_of_imp ?_
    rintro ⟨e, he, hc⟩
    exact (inside e he).2 c hc
  rw [ofDfa, Nfa.ofDfa, ← edges_toNfa]
  refine bind_congr fun _ => ?_
  simp only [hok, Error.ok_bind, same, rows]
  rfl

end Stepwise

end Nfa

end PatternAutomata
