import PatternAutomata.Proofs.Nfa.Operators

/-!
# Automata edge by edge

The rows of an automaton can be put together by adding one edge after another.  If this is done
with all edges of an automaton, in the order in which it lists them, its rows come out again
(`Nfa.addAll_edges`).

## Why the order counts

A row lists its symbols in the order in which they were first used.  Thus rows that have the same
edges may differ, and copying an automaton edge by edge gives the same row only if the edges come
in the right order.  A symbol without targets is lost in any case.  Tidy rows (`Nfa.Row.Tidy`) are
those without such symbols and without repetitions, and all operators leave rows tidy.

Epsilon edges are held in one set, so among them the order does not count, and they may be added
more than once (`Nfa.addAll_epsilon_congr`).

## Moving up

The operators copy their operands to higher numbers.  So the statement is about edges that are
moved up and added to empty rows behind some others, which is what an operator does.
-/

namespace PatternAutomata.Nfa

/-! ### Rows edge by edge -/

namespace Row

variable {row : Row} {moves : List (Char × StateSet)} {c : Char} {t : Nat}

/-- Adds edges to a row, one after another. -/
def addAll (row : Row) (edges : List (Label × Nat)) : Row :=
  edges.foldl (fun row e => row.addEdge e.1 e.2) row

/-- The edges of a row, symbols first, in the order in which an automaton lists them. -/
def edges (row : Row) : List (Label × Nat) :=
  (row.moves.flatMap fun m => m.2.toList.map fun t => (.symbol m.1, t)) ++
    row.silent.toList.map fun t => (.epsilon, t)

/-- No symbol is listed twice, and none without a target.  Such a row can be told from its edges,
if these come in order. -/
structure Tidy (row : Row) : Prop where
  distinct : (row.moves.map (·.1)).Nodup
  nonempty : ∀ m ∈ row.moves, ∃ t, t ∈ m.2

/-- The targets of a symbol are those it is listed with, as it is listed once. -/
theorem Tidy.on?_eq (tidy : row.Tidy) {m : Char × StateSet} (h : m ∈ row.moves) :
    row.on? m.1 = some m.2 := by
  have distinct := tidy.distinct
  rw [on?]
  generalize row.moves = moves at h distinct
  induction moves with
  | nil => cases h
  | cons first moves ih =>
      rw [List.map_cons, List.nodup_cons] at distinct
      rw [List.lookup_cons]
      rcases List.mem_cons.1 h with rfl | h
      · simp
      · have hne : m.1 ≠ first.1 := fun heq => distinct.1 (heq ▸ List.mem_map_of_mem h)
        rw [beq_eq_false_iff_ne.2 hne]
        exact ih h distinct.2

theorem addAll_append (row : Row) (edges more : List (Label × Nat)) :
    row.addAll (edges ++ more) = (row.addAll edges).addAll more :=
  List.foldl_append

/-- A symbol that is not listed is listed last, and never sorted in. -/
theorem insertMove_of_notMem (h : c ∉ moves.map (·.1)) :
    insertMove c t moves = moves ++ [(c, .singleton t)] := by
  induction moves with
  | nil => rfl
  | cons m moves ih =>
      obtain ⟨d, targets⟩ := m
      rw [List.map_cons, List.mem_cons, not_or] at h
      rw [insertMove, if_neg (Ne.symm h.1), ih h.2]
      rfl

/-- The symbol that is listed last gets one more target. -/
theorem insertMove_last (h : c ∉ moves.map (·.1)) (targets : StateSet) :
    insertMove c t (moves ++ [(c, targets)]) = moves ++ [(c, targets.insert t)] := by
  induction moves with
  | nil => exact if_pos rfl
  | cons m moves ih =>
      obtain ⟨d, _⟩ := m
      rw [List.map_cons, List.mem_cons, not_or] at h
      rw [List.cons_append, insertMove, if_neg (Ne.symm h.1), ih h.2]
      rfl

/-- The edges under a symbol that is not listed make one entry.  With no targets there would be
none, and so `hne` is needed. -/
theorem addAll_symbol (h : c ∉ row.moves.map (·.1)) {targets : List Nat} (hne : targets ≠ []) :
    row.addAll (targets.map fun t => (.symbol c, t)) =
      { row with moves := row.moves ++ [(c, .ofList targets)] } := by
  induction targets using List.reverseRecOn with
  | nil => exact absurd rfl hne
  | append_singleton targets t ih =>
      rw [List.map_append, addAll_append]
      by_cases hnil : targets = []
      · subst hnil
        show ({ row with moves := insertMove c t row.moves } : Row) = _
        rw [insertMove_of_notMem h]
        rfl
      · rw [ih hnil]
        show ({ row with moves := insertMove c t (row.moves ++ [(c, .ofList targets)]) } : Row) = _
        have grown : (StateSet.ofList targets).insert t = StateSet.ofList (targets ++ [t]) := by
          ext s
          simp only [Std.ExtTreeSet.mem_insert, Nat.compare_eq_eq, StateSet.mem_ofList,
            List.mem_append, List.mem_singleton]
          rw [or_comm, eq_comm]
        rw [insertMove_last h, grown]

/-- Edges under epsilon, which leave the symbols as they are. -/
theorem addAll_epsilon {edges : List (Label × Nat)} (h : ∀ e ∈ edges, e.1 = .epsilon) :
    row.addAll edges = { row with silent := row.silent ∪ StateSet.ofList (edges.map (·.2)) } := by
  induction edges generalizing row with
  | nil =>
      have none : row.silent ∪ StateSet.ofList [] = row.silent := by
        ext s
        simp [Std.ExtTreeSet.mem_union_iff, StateSet.mem_ofList]
      rw [List.map_nil, none]
      rfl
  | cons e edges ih =>
      obtain ⟨l, t⟩ := e
      obtain rfl : l = .epsilon := h _ List.mem_cons_self
      have more : row.silent.insert t ∪ StateSet.ofList (edges.map (·.2)) =
          row.silent ∪ StateSet.ofList (t :: edges.map (·.2)) := by
        ext s
        simp only [Std.ExtTreeSet.mem_union_iff, Std.ExtTreeSet.mem_insert, Nat.compare_eq_eq,
          StateSet.mem_ofList, List.mem_cons]
        rw [or_assoc, or_left_comm, eq_comm]
      rw [List.map_cons, ← more]
      exact @ih (row.addEdge .epsilon t) fun e he => h e (List.mem_cons_of_mem _ he)

/-- The edges of some symbols with targets, none of which is listed.  The entries come out in the
order of the symbols. -/
theorem addAll_moves {offset : Nat} (distinct : (row.moves.map (·.1) ++ moves.map (·.1)).Nodup)
    (nonempty : ∀ m ∈ moves, ∃ t, t ∈ m.2) :
    row.addAll (moves.flatMap fun m => m.2.toList.map fun t => (.symbol m.1, offset + t)) =
      { row with moves := row.moves ++ moves.map fun m => (m.1, m.2.shift offset) } := by
  induction moves generalizing row with
  | nil =>
      rw [List.map_nil, List.append_nil]
      rfl
  | cons m moves ih =>
      obtain ⟨c, targets⟩ := m
      rw [List.map_cons] at distinct
      have hnew : c ∉ row.moves.map (·.1) := fun h =>
        (List.nodup_append.1 distinct).2.2 c h c List.mem_cons_self rfl
      obtain ⟨t, ht⟩ := nonempty _ List.mem_cons_self
      have hne : targets.toList.map (offset + ·) ≠ [] := List.ne_nil_of_mem
        (List.mem_map_of_mem (Std.ExtTreeSet.mem_toList.2 ht))
      have first := addAll_symbol hnew hne
      rw [List.map_map] at first
      have rest := @ih { row with moves := row.moves ++ [(c, targets.shift offset)] }
        (by simpa using distinct) fun m hm => nonempty m (List.mem_cons_of_mem _ hm)
      rw [List.flatMap_cons, addAll_append]
      refine (congrArg (addAll · _) first).trans (rest.trans ?_)
      rw [List.append_assoc]
      rfl

/-- **The edges of a tidy row, moved up, give the row, moved up.** -/
theorem addAll_edges (tidy : row.Tidy) (offset : Nat) :
    empty.addAll (row.edges.map fun e => (e.1, offset + e.2)) = row.shift offset := by
  have symbols : (row.moves.flatMap fun m => m.2.toList.map fun t => (Label.symbol m.1, t)).map
      (fun e => (e.1, offset + e.2)) =
        row.moves.flatMap fun m => m.2.toList.map fun t => (.symbol m.1, offset + t) := by
    simp only [List.map_flatMap, List.map_map]
    rfl
  have silent : ∀ e ∈ (row.silent.toList.map fun t => (Label.epsilon, t)).map
      (fun e => (e.1, offset + e.2)), e.1 = .epsilon := by
    simp only [List.map_map, List.mem_map]
    rintro _ ⟨t, -, rfl⟩
    rfl
  have targets : (∅ : StateSet) ∪ StateSet.ofList (((row.silent.toList.map fun t =>
      (Label.epsilon, t)).map (fun e => (e.1, offset + e.2))).map (·.2)) =
        row.silent.shift offset := by
    ext s
    simp only [Std.ExtTreeSet.mem_union_iff, Std.ExtTreeSet.not_mem_empty, false_or,
      StateSet.shift, List.map_map]
    rfl
  have first := @addAll_moves empty row.moves offset tidy.distinct tidy.nonempty
  rw [edges, List.map_append, addAll_append, symbols, first, addAll_epsilon silent]
  exact congrArg (Row.mk _) targets

end Row

/-! ### All rows edge by edge -/

/-- An edge: its source, its label and its target. -/
abbrev Edge := Nat × Label × Nat

/-- Adds edges to the rows of their sources, one after another.  An edge from a state that is not
there is lost. -/
def addAll (rows : Array Row) (edges : List Edge) : Array Row :=
  edges.foldl (fun rows e => rows.modify e.1 fun row => row.addEdge e.2.1 e.2.2) rows

/-- An edge between states that are moved up. -/
def Edge.shift (offset : Nat) (e : Edge) : Edge :=
  (offset + e.1, e.2.1, offset + e.2.2)

/-- All rows are tidy. -/
def Tidy (nfa : Nfa) : Prop :=
  ∀ row ∈ nfa.rows, row.Tidy

variable {rows : Array Row} {edges : List Edge}

@[simp] theorem size_addAll (rows : Array Row) (edges : List Edge) :
    (addAll rows edges).size = rows.size := by
  unfold addAll
  induction edges generalizing rows with
  | nil => rfl
  | cons e edges ih => rw [List.foldl_cons, ih, Array.size_modify]

/-- **Every row gets the edges that leave its state**, in order, and no others. -/
theorem getElem?_addAll (rows : Array Row) (edges : List Edge) (s : Nat) :
    (addAll rows edges)[s]? =
      rows[s]?.map fun row => row.addAll ((edges.filter (·.1 = s)).map (·.2)) := by
  unfold addAll
  induction edges generalizing rows with
  | nil => simp [Row.addAll]
  | cons e edges ih =>
      rw [List.foldl_cons, ih, Array.getElem?_modify]
      by_cases he : e.1 = s
      · rw [if_pos he, List.filter_cons_of_pos (by simpa using he), Option.map_map]
        rfl
      · rw [if_neg he, List.filter_cons_of_neg (by simpa using he)]

theorem getElem?_of_mem_numbered {nfa : Nfa} {p : Nat × Row} (h : p ∈ nfa.numbered) :
    nfa.rows[p.1]? = some p.2 := by
  obtain ⟨e, he, rfl⟩ := List.mem_map.1 h
  rw [← Array.getElem?_toList]
  exact List.mem_zipIdx_iff_getElem?.1 he

theorem mem_numbered_of_getElem? {nfa : Nfa} {s : Nat} {row : Row}
    (h : nfa.rows[s]? = some row) :
    (s, row) ∈ nfa.numbered := by
  refine List.mem_map.2 ⟨(row, s), ?_, rfl⟩
  rw [List.mem_zipIdx_iff_getElem?, Array.getElem?_toList]
  exact h

/-- The edges of an automaton are those of its rows, symbols before epsilon.  The edges of one
state are not together in this list. -/
theorem edges_eq (nfa : Nfa) : nfa.edges =
    (nfa.numbered.flatMap fun p =>
      p.2.moves.flatMap fun m => m.2.toList.map fun t => (p.1, .symbol m.1, t)) ++
    nfa.numbered.flatMap fun p => p.2.silent.toList.map fun t => (p.1, .epsilon, t) := by
  rw [Nfa.edges, edgeRows, List.flatMap_append]
  congr 1
  · simp only [List.flatMap_assoc, List.flatMap_map]
  · generalize nfa.numbered = list
    induction list with
    | nil => rfl
    | cons p list ih =>
        obtain ⟨s, row⟩ := p
        rw [List.flatMap_cons, ← ih, List.filterMap_cons]
        by_cases hempty : row.silent.isEmpty = true
        · simp only [hempty, if_true]
          rw [Std.ExtTreeSet.isEmpty_iff.1 hempty]
          rfl
        · simp only [hempty]
          rfl

/-- Of edges that are listed by their sources, those of a state are listed under it. -/
theorem filter_flatMap_numbered {nfa : Nfa} {g : Nat × Row → List Edge}
    (own : ∀ p, ∀ e ∈ g p, e.1 = p.1) {s : Nat} {row : Row} (h : nfa.rows[s]? = some row) :
    (nfa.numbered.flatMap g).filter (·.1 = s) = g (s, row) := by
  -- behind a state only greater ones are numbered, so none of their edges is from it
  have others : ∀ (list : List Row) (k : Nat), s < k →
      ((list.zipIdx k).flatMap fun e => g (e.2, e.1)).filter (·.1 = s) = [] := by
    intro list k hk
    refine List.filter_eq_nil_iff.2 fun e he => ?_
    obtain ⟨p, hp, he⟩ := List.mem_flatMap.1 he
    have := (List.mem_zipIdx hp).1
    rw [own _ e he, decide_eq_true_eq]
    omega
  have from_index : ∀ (list : List Row) (k i : Nat), k + i = s → list[i]? = some row →
      ((list.zipIdx k).flatMap fun e => g (e.2, e.1)).filter (·.1 = s) = g (s, row) := by
    intro list
    induction list with
    | nil => intro k i _ hrow; cases hrow
    | cons first list ih =>
        intro k i hki hrow
        rw [List.zipIdx_cons, List.flatMap_cons, List.filter_append]
        cases i with
        | zero =>
            obtain rfl : first = row := Option.some.inj hrow
            obtain rfl : k = s := hki
            rw [others list _ (Nat.lt_succ_self _), List.append_nil]
            exact List.filter_eq_self.2 fun e he => by rw [own _ e he]; exact decide_eq_true rfl
        | succ i =>
            rw [ih (k + 1) i (by omega) hrow, List.filter_eq_nil_iff.2 fun e he => ?_,
              List.nil_append]
            rw [own _ e he, decide_eq_true_eq]
            omega
  rw [numbered, List.flatMap_map]
  exact from_index _ 0 s (Nat.zero_add s) (by rwa [Array.getElem?_toList])

/-- The edges of an automaton that leave a state are those of its row, in the order of the row. -/
theorem filter_edges {nfa : Nfa} {s : Nat} {row : Row} (h : nfa.rows[s]? = some row) :
    (nfa.edges.filter (·.1 = s)).map (·.2) = row.edges := by
  rw [edges_eq, List.filter_append, filter_flatMap_numbered _ h, filter_flatMap_numbered _ h]
  · simp only [List.map_append, List.map_flatMap, List.map_map]
    rfl
  · simp only [List.mem_map]
    rintro p _ ⟨t, -, rfl⟩
    rfl
  · simp only [List.mem_flatMap, List.mem_map]
    rintro p _ ⟨m, -, t, -, rfl⟩
    rfl

/-- **The edges of a tidy automaton, moved up, give its rows, moved up.** -/
theorem addAll_edges {a : Nfa} (tidy : a.Tidy) (rows : Array Row) :
    addAll (rows ++ Array.replicate a.numStates .empty) (a.edges.map (Edge.shift rows.size)) =
      rows ++ a.shiftedRows rows.size := by
  refine Array.ext_getElem? fun i => ?_
  rw [getElem?_addAll]
  -- below are the rows that were there, which no moved edge leaves, and above are the copied ones
  rcases Nat.lt_or_ge i rows.size with hi | hi
  · have none : (a.edges.map (Edge.shift rows.size)).filter (·.1 = i) = [] := by
      refine List.filter_eq_nil_iff.2 fun e he => ?_
      obtain ⟨e, -, rfl⟩ := List.mem_map.1 he
      rw [Edge.shift, decide_eq_true_eq]
      omega
    rw [Array.getElem?_append_left hi, Array.getElem?_append_left hi, none]
    exact Option.map_id'
  · obtain ⟨s, rfl⟩ := Nat.exists_eq_add_of_le hi
    have moved : (a.edges.map (Edge.shift rows.size)).filter (·.1 = rows.size + s) =
        (a.edges.filter (·.1 = s)).map (Edge.shift rows.size) := by
      rw [List.filter_map]
      congr 2
      funext e
      simp [Edge.shift]
    rw [Array.getElem?_append_right hi, Array.getElem?_append_right hi, Nat.add_sub_cancel_left,
      shiftedRows, Array.getElem?_map, Array.getElem?_replicate, moved]
    by_cases hs : s < a.numStates
    · have hrow : a.rows[s]? = some a.rows[s] := Array.getElem?_eq_getElem hs
      rw [if_pos hs, hrow, Option.map_some, Option.map_some,
        ← Row.addAll_edges (tidy _ (Array.getElem_mem hs)), ← filter_edges hrow, List.map_map,
        List.map_map]
      rfl
    · rw [if_neg hs, Array.getElem?_eq_none (Nat.le_of_not_lt hs)]
      rfl

/-- Every edge that is listed leads from its source to its target.  An entry that is repeated
might hide an edge behind another, so the rows have to be tidy. -/
theorem Tidy.leads {nfa : Nfa} (tidy : nfa.Tidy) {e : Edge} (h : e ∈ nfa.edges) :
    Leads nfa.rows e.1 e.2.1 e.2.2 := by
  rw [edges_eq, List.mem_append, List.mem_flatMap, List.mem_flatMap] at h
  rcases h with ⟨p, hp, h⟩ | ⟨p, hp, h⟩
  · obtain ⟨m, hm, h⟩ := List.mem_flatMap.1 h
    obtain ⟨t, ht, rfl⟩ := List.mem_map.1 h
    have hrow := getElem?_of_mem_numbered hp
    refine ⟨p.2, hrow, ?_⟩
    rw [Row.targets, (tidy _ (Array.mem_of_getElem? hrow)).on?_eq hm]
    exact Std.ExtTreeSet.mem_toList.1 ht
  · obtain ⟨t, ht, rfl⟩ := List.mem_map.1 h
    exact ⟨p.2, getElem?_of_mem_numbered hp, Std.ExtTreeSet.mem_toList.1 ht⟩

/-- Every edge that leads somewhere is listed. -/
theorem mem_edges_of_leads {nfa : Nfa} {s t : Nat} {label : Label}
    (h : Leads nfa.rows s label t) :
    (s, label, t) ∈ nfa.edges := by
  obtain ⟨row, hrow, ht⟩ := h
  have hmem := mem_numbered_of_getElem? hrow
  rw [edges_eq, List.mem_append, List.mem_flatMap, List.mem_flatMap]
  cases label with
  | epsilon =>
      exact .inr ⟨_, hmem, List.mem_map.2 ⟨t, Std.ExtTreeSet.mem_toList.2 ht, rfl⟩⟩
  | symbol c =>
      refine .inl ⟨_, hmem, ?_⟩
      rw [Row.targets, Row.on?] at ht
      cases hlookup : row.moves.lookup c with
      | none =>
          rw [hlookup] at ht
          exact absurd ht Std.ExtTreeSet.not_mem_empty
      | some targets =>
          rw [hlookup] at ht
          obtain ⟨before, after, hmoves, -⟩ := List.lookup_eq_some_iff.1 hlookup
          refine List.mem_flatMap.2 ⟨(c, targets), ?_,
            List.mem_map.2 ⟨t, Std.ExtTreeSet.mem_toList.2 ht, rfl⟩⟩
          show (c, targets) ∈ row.moves
          rw [hmoves]
          exact List.mem_append_right _ List.mem_cons_self

/-- **Epsilon edges may be added in any order**, and more than once, since they are held in sets. -/
theorem addAll_epsilon_congr {more : List Edge} (h : ∀ e ∈ edges, e.2.1 = .epsilon)
    (h' : ∀ e ∈ more, e.2.1 = .epsilon) (same : ∀ e, e ∈ edges ↔ e ∈ more) :
    addAll rows edges = addAll rows more := by
  refine Array.ext_getElem? fun s => ?_
  have silent : ∀ {list : List Edge}, (∀ e ∈ list, e.2.1 = .epsilon) →
      ∀ e ∈ (list.filter (·.1 = s)).map (·.2), e.1 = .epsilon := by
    intro list hlist e he
    obtain ⟨edge, hedge, rfl⟩ := List.mem_map.1 he
    exact hlist edge (List.mem_filter.1 hedge).1
  have targets : StateSet.ofList (((edges.filter (·.1 = s)).map (·.2)).map (·.2)) =
      StateSet.ofList (((more.filter (·.1 = s)).map (·.2)).map (·.2)) := by
    ext t
    simp only [StateSet.mem_ofList, List.map_map, List.mem_map, List.mem_filter, same]
  rw [getElem?_addAll, getElem?_addAll]
  congr 1
  funext row
  rw [Row.addAll_epsilon (silent h), Row.addAll_epsilon (silent h'), targets]

/-! ### Tidy automata -/

theorem Row.Tidy.of_moves_eq {row row' : Row} (tidy : row.Tidy) (h : row'.moves = row.moves) :
    row'.Tidy where
  distinct := h ▸ tidy.distinct
  nonempty := h ▸ tidy.nonempty

theorem Row.Tidy.empty : Row.empty.Tidy where
  distinct := List.nodup_nil
  nonempty _ h := nomatch h

theorem Row.Tidy.fork (targets : List Nat) : (Nfa.fork targets).Tidy :=
  Row.Tidy.empty.of_moves_eq rfl

theorem Row.Tidy.shift {row : Row} (tidy : row.Tidy) (offset : Nat) : (row.shift offset).Tidy where
  distinct := by
    rw [Row.shift, List.map_map]
    exact tidy.distinct
  nonempty m hm := by
    obtain ⟨m, hmem, rfl⟩ := List.mem_map.1 hm
    obtain ⟨t, ht⟩ := tidy.nonempty m hmem
    exact ⟨offset + t, StateSet.mem_shift.2 ⟨t, ht, rfl⟩⟩

theorem tidy_shiftedRows {a : Nfa} (tidy : a.Tidy) (offset : Nat) :
    ∀ row ∈ a.shiftedRows offset, row.Tidy := by
  intro row hrow
  obtain ⟨row, hmem, rfl⟩ := Array.mem_map.1 hrow
  exact (tidy row hmem).shift offset

/-- Epsilon edges leave rows tidy, as they do not touch the symbols. -/
theorem tidy_addAll (silent : ∀ e ∈ edges, e.2.1 = .epsilon) (tidy : ∀ row ∈ rows, row.Tidy) :
    ∀ row ∈ addAll rows edges, row.Tidy := by
  intro row hrow
  obtain ⟨s, hs, hrow⟩ := Array.mem_iff_getElem.1 hrow
  have hrow := Array.getElem?_eq_some_iff.2 ⟨hs, hrow⟩
  rw [getElem?_addAll, Option.map_eq_some_iff] at hrow
  obtain ⟨row', hrow', rfl⟩ := hrow
  rw [Row.addAll_epsilon]
  · exact (tidy row' (Array.mem_of_getElem? hrow')).of_moves_eq rfl
  · intro e he
    obtain ⟨edge, hedge, rfl⟩ := List.mem_map.1 he
    exact silent edge (List.mem_filter.1 hedge).1

/-- Links are epsilon edges, from each of the sources to one target. -/
theorem link_eq_addAll (sources : List Nat) (target : Nat) :
    link rows sources target = addAll rows (sources.map fun s => (s, .epsilon, target)) := by
  rw [addAll, List.foldl_map]
  rfl

theorem tidy_link {sources : List Nat} {target : Nat} (tidy : ∀ row ∈ rows, row.Tidy) :
    ∀ row ∈ link rows sources target, row.Tidy := by
  rw [link_eq_addAll]
  refine tidy_addAll (fun e he => ?_) tidy
  obtain ⟨s, -, rfl⟩ := List.mem_map.1 he
  rfl

theorem tidy_append {more : Array Row} (tidy : ∀ row ∈ rows, row.Tidy)
    (tidy' : ∀ row ∈ more, row.Tidy) : ∀ row ∈ rows ++ more, row.Tidy := fun row hrow =>
  (Array.mem_append.1 hrow).elim (tidy row) (tidy' row)

theorem tidy_singleton {row : Row} (tidy : row.Tidy) : ∀ row' ∈ #[row], row'.Tidy := by
  intro row' h
  rwa [List.mem_singleton.1 (List.mem_toArray.1 h)]

namespace Tidy

variable {a b : Nfa}

theorem nodup_eraseDups : ∀ symbols : List Char, symbols.eraseDups.Nodup
  | [] => List.nodup_nil
  | c :: rest => by
      rw [List.eraseDups_cons, List.nodup_cons]
      refine ⟨fun h => ?_, nodup_eraseDups _⟩
      have hne := (List.mem_filter.1 (List.mem_eraseDups.1 h)).2
      simp at hne
  termination_by symbols => symbols.length
  decreasing_by exact Nat.lt_succ_of_le (List.length_filter_le ..)

theorem oneOf (symbols : List Char) : (Nfa.oneOf symbols).Tidy := by
  refine @tidy_append #[_] #[_] (tidy_singleton ⟨?_, fun m hm => ?_⟩) (tidy_singleton .empty)
  · simpa [Function.comp_def] using nodup_eraseDups symbols
  · obtain ⟨c, -, rfl⟩ := List.mem_map.1 hm
    exact ⟨1, StateSet.mem_singleton.2 rfl⟩

theorem epsilon : Nfa.epsilon.Tidy :=
  tidy_singleton .empty

theorem union (ha : a.Tidy) (hb : b.Tidy) : (a.union b).Tidy :=
  tidy_link (tidy_append (tidy_append (tidy_append (tidy_singleton (.fork _))
    (tidy_shiftedRows ha _)) (tidy_shiftedRows hb _)) (tidy_singleton .empty))

theorem concat (ha : a.Tidy) (hb : b.Tidy) : (a.concat b).Tidy :=
  tidy_append (tidy_link ha) (tidy_shiftedRows hb _)

theorem star (ha : a.Tidy) : a.star.Tidy :=
  tidy_link (tidy_link (tidy_append (tidy_append (tidy_singleton (.fork _))
    (tidy_shiftedRows ha _)) (tidy_singleton .empty)))

theorem plus (ha : a.Tidy) : a.plus.Tidy :=
  ha.concat ha.star

theorem optional (ha : a.Tidy) : a.optional.Tidy :=
  tidy_link (tidy_append (tidy_append (tidy_singleton (.fork _)) (tidy_shiftedRows ha _))
    (tidy_singleton .empty))

end Tidy

end PatternAutomata.Nfa
