import Mathlib.Data.List.Induction
import Mathlib.Data.List.Sort
import PatternAutomata.Proofs.Dfa.Canonical
import PatternAutomata.Proofs.Dfa.Survey

/-!
# Automata of surveys

A finished survey is laid out as an automaton with one state for every point found.  All its
states are reached, and they are numbered breadth first.  Two constructions end in a survey, that
of the sets of active states and that of the blocks of states that accept the same words, and what
they have in common is proved here.

## From the survey to the automaton

`TransitionSystem.Surveyed.chart_ok` says that laying out succeeds, and `TransitionSystem.Charted`
says what the automaton is like: its states stand for the points and its edges for the edges
between them.  The system has to list the edges of each point by ascending symbols of the alphabet
(`TransitionSystem.Ascending`).  A symbol that was listed twice could be refused as a second
target, and with the symbols in another order the numbering would not be breadth first.

## From words to words

The words that are accepted from a state are those of its point, for any notion of words that
follows the edges (`TransitionSystem.Follows`).  A point of the powerset has the words that are
accepted while its states are active, a block has the words of its indices.  So each construction
has to show one recursion equation and gets its language.

## And back

`TransitionSystem.Charted.getElem?_rows_iff` recovers the rows from the automaton.  A list of
edges in ascending order is known from the edges, so of two surveys with the same automaton the
rows are the same.
-/

namespace PatternAutomata.TransitionSystem

variable {σ : Type} {system : TransitionSystem σ} {survey : Survey σ} {d : Dfa}

open List (Shortlex)

/-! ### Maps by number -/

/-- A map from the numbers of the entries of a list has an entry for every number. -/
theorem getElem?_ofList_zipIdx {α β : Type} (f : α → β) (list : List α) (n : Nat) :
    (Std.ExtTreeMap.ofList (list.zipIdx.map fun e => (e.2, f e.1)) compare)[n]? =
      list[n]?.map f := by
  have hfst : (list.zipIdx.map fun e => (e.2, f e.1)).map Prod.fst = List.range list.length := by
    rw [List.map_map]
    exact (List.zipIdx_map_snd ..).trans (by simp [List.range_eq_range'])
  have distinct : (list.zipIdx.map fun e => (e.2, f e.1)).Pairwise
      fun a b => ¬ compare a.1 b.1 = .eq := by
    rw [← List.pairwise_map (f := Prod.fst) (R := fun a b => ¬ compare a b = .eq), hfst]
    exact List.nodup_range.imp fun hne heq => hne (Nat.compare_eq_eq.1 heq)
  cases hn : list[n]? with
  | some a =>
      refine Std.ExtTreeMap.getElem?_ofList_of_mem Std.ReflCmp.compare_self distinct ?_
      exact List.mem_map.2 ⟨(a, n), List.mem_zipIdx_iff_getElem?.2 hn, rfl⟩
  | none =>
      refine Std.ExtTreeMap.getElem?_ofList_of_contains_eq_false ?_
      rw [hfst, List.contains_eq_mem, decide_eq_false_iff_not, List.mem_range]
      exact Nat.not_lt.2 (List.getElem?_eq_none_iff.1 hn)

/-! ### Surveys number breadth first -/

namespace Surveyed

/-- The states of the automaton of a survey are reached, since every point but the first
was found from a point of smaller number. -/
theorem accessible (done : Surveyed system survey) (hstart : d.start = 0)
    (hsize : d.numStates = survey.found.size)
    (htr : ∀ s c t, d.transition s c = some t ↔
      ∃ row, survey.rows[s]? = some row ∧ (c, t) ∈ row) : d.Accessible := by
  intro n
  induction n using Nat.strong_induction_on with
  | _ n ih =>
      intro hn
      rcases Nat.eq_zero_or_pos n with rfl | hpos
      · exact ⟨[], by rw [Dfa.run_nil, hstart]⟩
      · obtain ⟨i, hi, row, c, hrow, hmem⟩ := done.parent n hpos (hsize ▸ hn)
        obtain ⟨w, hw⟩ := ih i hi (hi.trans hn)
        refine ⟨w ++ [c], ?_⟩
        rw [Dfa.run_concat, hw]
        exact (htr i c n).2 ⟨row, hrow, hmem⟩

theorem shortlex_concat {v w : List Char} (h : Shortlex (· < ·) v w) (b c : Char) :
    Shortlex (· < ·) (v ++ [b]) (w ++ [c]) := by
  rw [List.shortlex_def] at h ⊢
  rcases h with h | ⟨hlen, hlex⟩
  · exact Or.inl (by simpa using h)
  · refine Or.inr ⟨by simpa using hlen, ?_⟩
    induction hlex with
    | nil => simp at hlen
    | @cons a v w _ ih =>
        exact .cons (ih (by simpa using hlen))
    | rel hab => exact .rel hab

/-- **A survey numbers breadth first**, if it follows the edges of every point in the order of
their symbols.  The proof goes by the number of the state and compares the words by their last
symbols, as every point but the first was found along an edge from an earlier one. -/
theorem breadthFirst (done : Surveyed system survey) (hstart : d.start = 0)
    (htr : ∀ s c t, d.transition s c = some t ↔
      ∃ row, survey.rows[s]? = some row ∧ (c, t) ∈ row)
    (sorted : ∀ row ∈ survey.rows, row.Pairwise fun r r' => r.1 < r'.1) :
    d.BreadthFirst := by
  intro s t hst w
  induction w using List.reverseRecOn generalizing s t with
  | nil =>
      intro hw
      rw [Dfa.run_nil, hstart, Option.some.injEq] at hw
      omega
  | append_singleton w c ih =>
      intro hw
      rw [Dfa.run_concat, Option.bind_eq_some_iff] at hw
      obtain ⟨r, hr, hstep⟩ := hw
      obtain ⟨row, hrow, hmem⟩ := (htr r c t).1 hstep
      -- every state but the start has an edge into it that came before the last edge of the word
      rcases Nat.eq_zero_or_pos s with rfl | hpos
      · refine ⟨[], by rw [Dfa.run_nil, hstart], ?_⟩
        exact Shortlex.of_length_lt (by simp)
      · obtain ⟨pre, post, rfl⟩ := List.append_of_mem hmem
        rcases done.order r pre c t post hrow s hpos hst with
          ⟨j, hj, row', b, hrow', hmem'⟩ | ⟨b, hb⟩
        · obtain ⟨v, hv, hvw⟩ := ih j r hj hr
          refine ⟨v ++ [b], ?_, shortlex_concat hvw b c⟩
          rw [Dfa.run_concat, hv]
          exact (htr j b s).2 ⟨row', hrow', hmem'⟩
        · refine ⟨w ++ [b], ?_, ?_⟩
          · rw [Dfa.run_concat, hr]
            exact (htr r b s).2 ⟨_, hrow, List.mem_append_left _ hb⟩
          · have hbc : b < c := by
              have := sorted _ (Array.mem_of_getElem? hrow)
              exact (List.pairwise_append.1 this).2.2 (b, s) hb (c, t) List.mem_cons_self
            exact Shortlex.append_left ((List.shortlex_singleton_iff b c).2 hbc) w

end Surveyed

/-! ### The automaton of a survey -/

/-- `Charted system survey alphabet accepting d`: the states of `d` stand for the points of a
finished survey and its edges for the edges between them.  What the states stand for is not filled
in yet. -/
structure Charted (system : TransitionSystem σ) (survey : Survey σ) (alphabet : Alphabet)
    (accepting : σ → Bool) (d : Dfa) : Prop where
  built : d.Built
  numStates_eq : d.numStates = survey.found.size
  start_eq : d.start = 0
  alphabet_eq : d.alphabet = alphabet
  mapping_eq : d.mapping = none
  isAccepting_iff : ∀ (s : Nat), d.isAccepting s = true ↔
    ∃ p, survey.found[s]? = some p ∧ accepting p = true
  transition_iff : ∀ (s : Nat) c (t : Nat), d.transition s c = some t ↔
    ∃ p q, survey.found[s]? = some p ∧ survey.found[t]? = some q ∧ (c, q) ∈ system.edges p
  accessible : d.Accessible
  breadthFirst : d.BreadthFirst

/-- The edges of each point carry symbols of the alphabet, in ascending order.  Only points that
can be met have to comply. -/
structure Ascending (system : TransitionSystem σ) (alphabet : Alphabet) : Prop where
  mem_alphabet : ∀ p, system.Reachable p → ∀ c q, (c, q) ∈ system.edges p → c ∈ alphabet
  sorted : ∀ p, system.Reachable p → (system.edges p).Pairwise fun e e' => e.1 < e'.1

/-- Edges that are listed in the order of their symbols stay so where some are left out. -/
theorem sorted_filterMap {α : Type} {edge : α → Option (Char × σ)} {symbol : α → Char}
    (hsymbol : ∀ a e, edge a = some e → e.1 = symbol a) {list : List α}
    (ascending : list.Pairwise fun a b => symbol a < symbol b) :
    (list.filterMap edge).Pairwise fun e e' => e.1 < e'.1 := by
  refine List.Pairwise.filterMap _ ?_ ascending
  intro a b hab e he e' he'
  rw [hsymbol a e he, hsymbol b e' he']
  exact hab

namespace Surveyed

variable {alphabet : Alphabet} {accepting : σ → Bool}

/-- A row is in the order of the edges that it was made of. -/
theorem row_sorted (done : Surveyed system survey) (ascending : system.Ascending alphabet)
    {row : List (Char × Nat)} (hrow : row ∈ survey.rows) :
    row.Pairwise fun r r' => r.1 < r'.1 := by
  obtain ⟨i, hi⟩ := Array.mem_iff_getElem?.1 hrow
  obtain ⟨p, hp, hnum⟩ := done.numbered i row hi
  have hsorted := ascending.sorted p (done.reachable i p hp)
  have keys : row.map (·.1) = (system.edges p).map (·.1) := by
    refine List.forall₂_eq_eq_eq ▸ ?_
    rw [List.forall₂_map_left_iff, List.forall₂_map_right_iff]
    exact (hnum.imp fun _ _ h => h.1.symm).flip
  rw [← List.pairwise_map (f := Prod.fst) (R := (· < ·)), keys, List.pairwise_map]
  exact hsorted

/-- The rows hold the edges between the points found. -/
theorem mem_row_iff (done : Surveyed system survey) {s t : Nat} {c : Char} :
    (∃ row, survey.rows[s]? = some row ∧ (c, t) ∈ row) ↔
      ∃ p q, survey.found[s]? = some p ∧ survey.found[t]? = some q ∧ (c, q) ∈ system.edges p := by
  constructor
  · rintro ⟨row, hrow, hmem⟩
    obtain ⟨p, hp, hnum⟩ := done.numbered s row hrow
    obtain ⟨q, hq, he⟩ := hnum.exists_of_mem hmem
    exact ⟨p, q, hp, hq, he⟩
  · rintro ⟨p, q, hp, hq, he⟩
    obtain ⟨row, hrow, hnum⟩ := done.row_of_found hp
    exact ⟨row, hrow, (hnum.mem_iff done.filed hq).2 he⟩

theorem getElem?_zip_rows {s : Nat} {b : Bool} {row : List (Char × Nat)} :
    ((survey.found.toList.map accepting).zip survey.rows.toList)[s]? = some (b, row) ↔
      (∃ p, survey.found[s]? = some p ∧ accepting p = b) ∧ survey.rows[s]? = some row := by
  rw [List.getElem?_zip_eq_some, List.getElem?_map, Option.map_eq_some_iff,
    Array.getElem?_toList, Array.getElem?_toList]

theorem length_zip_rows (done : Surveyed system survey) (accepting : σ → Bool) :
    ((survey.found.toList.map accepting).zip survey.rows.toList).length = survey.found.size := by
  rw [List.length_zip, List.length_map, Array.length_toList, Array.length_toList,
    done.settled, Nat.min_self]

/-- **A finished survey can be laid out.**  Every number in a row names a point that was found, so
no edge is loose, and ascending symbols leave no second target. -/
theorem chart_ok (done : Surveyed system survey) (ascending : system.Ascending alphabet)
    (accepting : σ → Bool) :
    ∃ d, Dfa.ofRows alphabet ((survey.found.toList.map accepting).zip survey.rows.toList) =
      .ok d ∧ Charted system survey alphabet accepting d := by
  -- the two arguments are those by which an edge could be refused: loose ends and second targets
  obtain ⟨d, hok, laid⟩ := Dfa.ofRows_ok alphabet
    ((survey.found.toList.map accepting).zip survey.rows.toList)
    (by
      rintro ⟨b, row⟩ hmem c t ht
      obtain ⟨s, hs⟩ := List.mem_iff_getElem?.1 hmem
      obtain ⟨-, hrow⟩ := getElem?_zip_rows.1 hs
      obtain ⟨p, q, hp, hq, he⟩ := done.mem_row_iff.1 ⟨row, hrow, ht⟩
      refine ⟨ascending.mem_alphabet p (done.reachable s p hp) c q he, ?_⟩
      rw [done.length_zip_rows]
      exact (Array.getElem?_eq_some_iff.1 hq).1)
    (by
      rintro ⟨b, row⟩ hmem c t t' ht ht'
      obtain ⟨s, hs⟩ := List.mem_iff_getElem?.1 hmem
      obtain ⟨-, hrow⟩ := getElem?_zip_rows.1 hs
      have hsorted := done.row_sorted ascending (Array.mem_of_getElem? hrow)
      have distinct : (row.map (·.1)).Nodup :=
        List.pairwise_map.2 (hsorted.imp fun h => Char.ne_of_lt h)
      exact congrArg Prod.snd (List.inj_on_of_nodup_map distinct ht' ht rfl))
  have transitions : ∀ (s : Nat) c (t : Nat), d.transition s c = some t ↔
      ∃ row, survey.rows[s]? = some row ∧ (c, t) ∈ row := by
    intro s c t
    rw [laid.transition_iff]
    constructor
    · rintro ⟨⟨b, row⟩, hs, hmem⟩
      exact ⟨row, (getElem?_zip_rows.1 hs).2, hmem⟩
    · rintro ⟨row, hrow, hmem⟩
      obtain ⟨p, hp, -⟩ := done.numbered s row hrow
      exact ⟨(accepting p, row), getElem?_zip_rows.2 ⟨⟨p, hp, rfl⟩, hrow⟩, hmem⟩
  have size : d.numStates = survey.found.size :=
    laid.numStates_eq.trans (done.length_zip_rows accepting)
  refine ⟨d, hok, laid.built, size, laid.start_eq, laid.alphabet_eq, laid.mapping_eq,
    fun s => ?_, fun s c t => (transitions s c t).trans done.mem_row_iff,
    done.accessible laid.start_eq size transitions,
    done.breadthFirst laid.start_eq transitions fun row hrow => done.row_sorted ascending hrow⟩
  rw [laid.isAccepting_iff]
  constructor
  · rintro ⟨⟨b, row⟩, hs, hb⟩
    obtain ⟨⟨p, hp, rfl⟩, -⟩ := getElem?_zip_rows.1 hs
    exact ⟨p, hp, hb⟩
  · rintro ⟨p, hp, hacc⟩
    obtain ⟨row, hrow, -⟩ := done.row_of_found hp
    exact ⟨(accepting p, row), getElem?_zip_rows.2 ⟨⟨p, hp, rfl⟩, hrow⟩, hacc⟩

end Surveyed

/-- The words that the points are said to have follow the edges.  The last field is about symbols
without an edge: nothing is accepted over them. -/
structure Follows (system : TransitionSystem σ) (accepting : σ → Bool)
    (words : σ → List Char → Bool) : Prop where
  nil : ∀ p, system.Reachable p → words p [] = accepting p
  cons : ∀ p, system.Reachable p → ∀ c q w, (c, q) ∈ system.edges p →
    words p (c :: w) = words q w
  stuck : ∀ p, system.Reachable p → ∀ c w, (∀ q, (c, q) ∉ system.edges p) →
    words p (c :: w) = false

namespace Charted

variable {alphabet : Alphabet} {accepting : σ → Bool} {words : σ → List Char → Bool}

theorem pos (chart : Charted system survey alphabet accepting d)
    (done : Surveyed system survey) : 0 < d.numStates := by
  rw [chart.numStates_eq]
  exact (Array.getElem?_eq_some_iff.1 done.start).1

/-- **The words accepted from a state are those of its point.**  The induction is on the word,
with all states at once. -/
theorem acceptsFrom_eq (chart : Charted system survey alphabet accepting d)
    (done : Surveyed system survey) (follows : system.Follows accepting words) {s : Nat} {p : σ}
    (hp : survey.found[s]? = some p) (w : List Char) : d.acceptsFrom s w = words p w := by
  induction w generalizing s p with
  | nil =>
      rw [Dfa.acceptsFrom_nil, follows.nil p (done.reachable s p hp), Bool.eq_iff_iff,
        chart.isAccepting_iff]
      constructor
      · rintro ⟨q, hq, hacc⟩
        rw [hp, Option.some.injEq] at hq
        exact hq ▸ hacc
      · exact fun hacc => ⟨p, hp, hacc⟩
  | cons c w ih =>
      rw [Dfa.acceptsFrom_cons]
      cases htr : d.transition s c with
      | some t =>
          obtain ⟨p', q, hp', hq, he⟩ := (chart.transition_iff s c t).1 htr
          rw [hp, Option.some.injEq] at hp'
          subst hp'
          rw [follows.cons p (done.reachable s p hp) c q w he]
          exact ih hq
      | none =>
          refine (follows.stuck p (done.reachable s p hp) c w fun q he => ?_).symm
          obtain ⟨row, -, hnum⟩ := done.row_of_found hp
          obtain ⟨t, hq, -⟩ := hnum.exists_number he
          rw [(chart.transition_iff s c t).2 ⟨p, q, hp, hq, he⟩] at htr
          cases htr

theorem accepts_eq (chart : Charted system survey alphabet accepting d)
    (done : Surveyed system survey) (follows : system.Follows accepting words) (w : List Char) :
    d.accepts w = words system.start w := by
  rw [Dfa.accepts, chart.start_eq]
  exact chart.acceptsFrom_eq done follows done.start w

/-- **The rows that an automaton was made of are known from the automaton**: whether each state
accepts, and its edges in the order of their symbols. -/
theorem getElem?_rows_iff (chart : Charted system survey alphabet accepting d)
    (done : Surveyed system survey) (ascending : system.Ascending alphabet) {s : Nat} {b : Bool}
    {row : List (Char × Nat)} :
    ((survey.found.toList.map accepting).zip survey.rows.toList)[s]? = some (b, row) ↔
      s < d.numStates ∧ d.isAccepting s = b ∧ (row.Pairwise fun r r' => r.1 < r'.1) ∧
        ∀ c t, (c, t) ∈ row ↔ d.transition s c = some t := by
  have row_spec : ∀ {p row}, survey.found[s]? = some p → survey.rows[s]? = some row →
      d.isAccepting s = accepting p ∧ (row.Pairwise fun r r' => r.1 < r'.1) ∧
        ∀ c t, (c, t) ∈ row ↔ d.transition s c = some t := by
    intro p row hp hrow
    refine ⟨?_, done.row_sorted ascending (Array.mem_of_getElem? hrow), fun c t => ?_⟩
    · rw [Bool.eq_iff_iff, chart.isAccepting_iff]
      simp only [hp, Option.some.injEq, exists_eq_left']
    · rw [chart.transition_iff, ← done.mem_row_iff]
      simp only [hrow, Option.some.injEq, exists_eq_left']
  rw [Surveyed.getElem?_zip_rows, chart.numStates_eq]
  constructor
  · rintro ⟨⟨p, hp, rfl⟩, hrow⟩
    exact ⟨(Array.getElem?_eq_some_iff.1 hp).1, row_spec hp hrow⟩
  · rintro ⟨hs, rfl, sorted, hmem⟩
    have hp := Array.getElem?_eq_getElem hs
    obtain ⟨row', hrow', -⟩ := done.row_of_found hp
    obtain ⟨haccepting, sorted', hmem'⟩ := row_spec hp hrow'
    -- there is one way to list the edges in the order of their symbols
    obtain rfl : row = row' := by
      refine sorted.eq_of_mem_iff sorted' fun edge => ?_
      rw [hmem edge.1 edge.2, hmem' edge.1 edge.2]
    exact ⟨⟨_, hp, haccepting.symm⟩, hrow'⟩

end Charted

end PatternAutomata.TransitionSystem
