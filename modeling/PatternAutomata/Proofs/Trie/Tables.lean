import Mathlib.Data.Set.Card
import PatternAutomata.Proofs.Guarded.Basic
import PatternAutomata.Proofs.Stepwise
import PatternAutomata.Proofs.Trie

/-!
# Prefix trees in two tables

A prefix tree can be kept without nodes: one table tells which beginnings are words, and another
where each symbol leads.  The number of the next node is drawn from the first table before
anything is looked up in the second, and it is only used if nothing is found there.

## The tables of a tree

The two tables hold what the nodes hold, sorted in another way, and `Trie.Listing` says so by two
equations.  A symbol that leads somewhere adds nothing to either (`Trie.Listing.follow_some`), and
one that leads nowhere adds the node that the number was drawn for (`Trie.Listing.follow_none`).
So a word is added to the tables as it is to the tree, and the automaton of a list of words is the
same.

## What has to be there

The node at the end of a word has to be there when it is marked.  The tables alone do not say that
it is; it follows from the tree, whose nodes are labelled with beginnings.  This is the only
lookup that could fail, and the functions on tables are guarded for its sake.

## Exactness

`Trie.toDfa_exact` says of both ways what the automaton of a list of words is: one state for each
beginning, reached by this beginning and by nothing else.  How many beginnings there are is said
by the cardinality of a set, without mentioning the list in which they are collected.
-/

namespace PatternAutomata

/-! ### Edges in order -/

namespace Dfa

/-- `e.Before e'`: edges by source, and then by symbol.  An automaton lists its edges in this
order. -/
def Before (e e' : Nat × Char × Nat) : Prop :=
  e.1 < e'.1 ∨ e.1 = e'.1 ∧ e.2.1 < e'.2.1

instance : Std.Asymm Before where
  asymm e e' h h' := by
    rcases h with hlt | ⟨heq, hlt⟩
    · rcases h' with hlt' | ⟨heq', -⟩
      · exact Nat.lt_asymm hlt hlt'
      · exact Nat.ne_of_lt hlt heq'.symm
    · rcases h' with hlt' | ⟨-, hlt'⟩
      · exact Nat.ne_of_lt hlt' heq.symm
      · exact Char.lt_asymm hlt hlt'

/-- Edges of rows are in order if each row is, since the rows come in the order of their states. -/
theorem rowEdges_sorted {rows : List (List (Char × Nat))}
    (h : ∀ row ∈ rows, row.Pairwise fun e e' => e.1 < e'.1) : (rowEdges rows).Pairwise Before := by
  induction rows using List.reverseRecOn with
  | nil => exact .nil
  | append_singleton rows row ih =>
      rw [rowEdges_concat, List.pairwise_append, List.pairwise_map]
      refine ⟨ih fun r hr => h r (List.mem_append_left _ hr), ?_, ?_⟩
      · exact (h row (by simp)).imp fun hlt => .inr ⟨rfl, hlt⟩
      · rintro ⟨s, c, t⟩ he e' he'
        obtain ⟨e, -, rfl⟩ := List.mem_map.1 he'
        exact .inl (source_lt_of_mem_rowEdges he)

end Dfa

namespace Trie

/-! ### The tables -/

/-- By node, and then by symbol. -/
def byNode : Nat × Char → Nat × Char → Ordering :=
  compareLex (compareOn Prod.fst) (compareOn Prod.snd)

instance : Std.TransCmp byNode :=
  inferInstanceAs (Std.TransCmp (compareLex (compareOn Prod.fst) (compareOn Prod.snd)))

theorem byNode_eq_lt {a b : Nat × Char} :
    byNode a b = .lt ↔ a.1 < b.1 ∨ a.1 = b.1 ∧ a.2 < b.2 := by
  have hsymbol : compare a.2 b.2 = .lt ↔ a.2 < b.2 := compareOfLessAndEq_eq_lt
  rw [byNode, compareLex, Ordering.then_eq_lt, compareOn, compareOn, Nat.compare_eq_lt,
    Nat.compare_eq_eq, hsymbol]

@[simp] theorem byNode_eq_eq {a b : Nat × Char} : byNode a b = .eq ↔ a = b := by
  rw [byNode, compareLex_eq_eq, compareOn, compareOn, Std.LawfulEqCmp.compare_eq_iff_eq,
    Std.LawfulEqCmp.compare_eq_iff_eq, Prod.ext_iff]

instance : Std.LawfulEqCmp byNode where
  eq_of_compare := byNode_eq_eq.1

/-- A prefix tree in tables, with the symbols that were read. -/
structure Tables where
  /-- Whether the beginning of each node is a word. -/
  marks : Array Bool
  /-- The node that each symbol leads to from each node. -/
  edges : Std.ExtTreeMap (Nat × Char) Nat byNode
  /-- The symbols read so far. -/
  alphabet : Alphabet

namespace Tables

/-- The empty beginning alone, which is not a word yet. -/
def empty : Tables := ⟨#[false], ∅, ∅⟩

/-- **Goes on by a symbol**, to the node that it leads to or, if there is none, to a new one. -/
def follow (t : Tables) (node : Nat) (c : Char) : Nat × Tables :=
  let alphabet := t.alphabet.insert c
  let fresh := t.marks.size
  match t.edges[(node, c)]? with
  | some next => (next, { t with alphabet })
  | none =>
    (fresh, { marks := t.marks.push false, edges := t.edges.insert (node, c) fresh, alphabet })

/-- Goes on by the rest of a word, and tells the node at its end. -/
def walk (t : Tables) (node : Nat) : List Char → Nat × Tables
  | [] => (node, t)
  | c :: rest =>
    let (next, t) := t.follow node c
    t.walk next rest

/-- Adds a word, and marks the node at its end, which has to be there. -/
def insert (t : Tables) (word : List Char) : Guarded Tables := do
  let (node, t) := t.walk 0 word
  Guarded.require (node < t.marks.size)
  return { t with marks := t.marks.setIfInBounds node true }

/-- The tables of a list of words. -/
def ofWords (words : List (List Char)) : Guarded Tables :=
  words.foldlM insert empty

/-- The edges, by node and then by symbol, as the second table is sorted. -/
def listed (t : Tables) : List (Nat × Char × Nat) :=
  t.edges.toList.map fun ((node, c), next) => (node, c, next)

theorem mem_listed {t : Tables} {node next : Nat} {c : Char} :
    (node, c, next) ∈ t.listed ↔ t.edges[(node, c)]? = some next := by
  rw [← Std.ExtTreeMap.mem_toList_iff_getElem?_eq_some, listed, List.mem_map]
  constructor
  · rintro ⟨⟨⟨node', c'⟩, next'⟩, hmem, heq⟩
    cases heq
    exact hmem
  · intro hmem
    exact ⟨_, hmem, rfl⟩

/-- **The automaton of a list of words**: a state for every entry of the first table, and then the
edges of the second. -/
def toDfa (words : List (List Char)) : Guarded Dfa := do
  let t ← ofWords words
  Guarded.lift ((Dfa.bare t.alphabet t.marks.toList).addTransitions t.listed)

end Tables

/-! ### The tables of a tree -/

theorem child?_eq_none_of_le {tree : Trie} {i : Nat} (h : tree.nodes.size ≤ i) (c : Char) :
    tree.child? i c = none := by
  rw [child?, Array.getElem?_eq_none h]

theorem child?_mark (tree : Trie) (node i : Nat) (c : Char) :
    (tree.mark node).child? i c = tree.child? i c := by
  rw [child?, child?, mark, Array.getElem?_modify]
  by_cases hnode : node = i
  · rw [if_pos hnode]
    cases tree.nodes[i]? with
    | none => rfl
    | some n => rfl
  · rw [if_neg hnode]

/-- A node that is added is the child of one node under one symbol, and has no children. -/
theorem child?_grow {tree : Trie} {node : Nat} (h : node < tree.nodes.size) (c : Char) (i : Nat)
    (d : Char) : (tree.grow node c).child? i d =
      if (node, c) = (i, d) then some tree.nodes.size else tree.child? i d := by
  rw [child?, grow, Array.getElem?_push, Array.size_modify]
  by_cases hsize : i = tree.nodes.size
  · have hne : node ≠ i := by omega
    rw [if_pos hsize, child?_eq_none_of_le hsize.ge]
    simp [hne]
  · rw [if_neg hsize, Array.getElem?_modify, child?]
    by_cases hnode : node = i
    · subst hnode
      rw [if_pos rfl, Array.getElem?_eq_getElem h, Option.map_some]
      simp [Std.ExtTreeMap.getElem?_insert]
    · rw [if_neg hnode]
      simp [hnode]

/-- A node that is added is not marked, and no mark is lost. -/
theorem map_isWord_grow (tree : Trie) (node : Nat) (c : Char) :
    (tree.grow node c).nodes.map (·.isWord) = (tree.nodes.map (·.isWord)).push false := by
  apply Array.ext_getElem?
  intro i
  rw [grow, Array.map_push, Array.getElem?_push, Array.getElem?_push, Array.size_map,
    Array.size_map, Array.size_modify, Array.getElem?_map, Array.getElem?_map,
    Array.getElem?_modify]
  by_cases hi : node = i
  · rw [if_pos hi, Option.map_map]
    rfl
  · rw [if_neg hi]

theorem map_isWord_mark (tree : Trie) (node : Nat) :
    (tree.mark node).nodes.map (·.isWord) =
      (tree.nodes.map (·.isWord)).setIfInBounds node true := by
  apply Array.ext_getElem?
  intro i
  rw [mark, Array.getElem?_setIfInBounds, Array.getElem?_map, Array.getElem?_map,
    Array.getElem?_modify, Array.size_map]
  by_cases hi : node = i
  · subst hi
    rw [if_pos rfl, if_pos rfl]
    by_cases hlt : node < tree.nodes.size
    · rw [if_pos hlt, Array.getElem?_eq_getElem hlt]
      rfl
    · rw [if_neg hlt, Array.getElem?_eq_none (Nat.le_of_not_lt hlt)]
      rfl
  · rw [if_neg hi, if_neg hi]

/-- **The tables of a tree**, where the words that have been read hold the symbols `read`. -/
structure Listing (tree : Trie) (read : List Char) (t : Tables) : Prop where
  marks_eq : t.marks = tree.nodes.map (·.isWord)
  edges_eq : ∀ node c, t.edges[(node, c)]? = tree.child? node c
  mem_alphabet : ∀ c, c ∈ t.alphabet ↔ c ∈ read

namespace Listing

variable {tree : Trie} {t : Tables} {read : List Char} {node : Nat}

theorem empty : Listing Trie.empty [] Tables.empty where
  marks_eq := by simp [Tables.empty, Trie.empty]
  edges_eq node c := by
    rw [Tables.empty, Std.ExtTreeMap.getElem?_empty, child?]
    cases node with
    | zero => simp [Trie.empty]
    | succ node => simp [Trie.empty]
  mem_alphabet c := by simp [Tables.empty]

theorem size_marks (h : Listing tree read t) : t.marks.size = tree.nodes.size := by
  rw [h.marks_eq, Array.size_map]

theorem mem_insert_alphabet (h : Listing tree read t) (c d : Char) :
    d ∈ t.alphabet.insert c ↔ d ∈ read ++ [c] := by
  rw [Std.ExtTreeSet.mem_insert, Std.LawfulEqCmp.compare_eq_iff_eq, h.mem_alphabet,
    List.mem_append, List.mem_singleton, or_comm, eq_comm]

/-- A symbol that leads somewhere adds no node, and the number that was drawn is not used. -/
theorem follow_some (h : Listing tree read t) {c : Char} {next : Nat}
    (hchild : tree.child? node c = some next) :
    ∃ t', t.follow node c = (next, t') ∧ Listing tree (read ++ [c]) t' := by
  rw [Tables.follow, h.edges_eq, hchild]
  exact ⟨_, rfl, h.marks_eq, h.edges_eq, h.mem_insert_alphabet c⟩

/-- A symbol that leads nowhere adds the node that the number was drawn for. -/
theorem follow_none (h : Listing tree read t) {c : Char} (hnode : node < tree.nodes.size)
    (hchild : tree.child? node c = none) :
    ∃ t', t.follow node c = (tree.nodes.size, t') ∧
      Listing (tree.grow node c) (read ++ [c]) t' := by
  rw [Tables.follow, h.edges_eq, hchild, h.size_marks]
  refine ⟨_, rfl, ?_, ?_, h.mem_insert_alphabet c⟩
  · rw [map_isWord_grow, h.marks_eq]
  · intro i d
    rw [Std.ExtTreeMap.getElem?_insert, h.edges_eq, child?_grow hnode]
    simp only [byNode_eq_eq]

/-- Marking a node in the first table marks it in the tree. -/
theorem mark (h : Listing tree read t) (node : Nat) :
    Listing (tree.mark node) read { t with marks := t.marks.setIfInBounds node true } where
  marks_eq := by rw [map_isWord_mark, h.marks_eq]
  edges_eq i c := by rw [h.edges_eq, child?_mark]
  mem_alphabet := h.mem_alphabet

/-- **The rest of a word leads to a node that is there**, and marking it makes the tables those of
the tree with the word. -/
theorem walk {labels words : List (List Char)} {v : List Char}
    (labelled : tree.Labelled labels words) (hnode : labels[node]? = some v)
    (h : Listing tree read t) (rest : List Char) :
    ∃ last t', t.walk node rest = (last, t') ∧ last < t'.marks.size ∧
      Listing (tree.insertFrom node rest) (read ++ rest)
        { t' with marks := t'.marks.setIfInBounds last true } := by
  have hlt := (List.getElem?_eq_some_iff.1 hnode).1
  rw [← labelled.size_eq] at hlt
  induction rest generalizing tree t read labels words node v with
  | nil =>
      rw [List.append_nil]
      exact ⟨node, t, rfl, h.size_marks ▸ hlt, h.mark node⟩
  | cons c rest ih =>
      have happend : read ++ c :: rest = read ++ [c] ++ rest := by simp
      rw [Tables.walk, Trie.insertFrom, happend]
      cases hchild : tree.child? node c with
      | some next =>
          have hnext := (labelled.child?_iff hnode).1 hchild
          have hsize := (List.getElem?_eq_some_iff.1 hnext).1
          obtain ⟨t', hfollow, h'⟩ := h.follow_some hchild
          rw [hfollow]
          exact ih labelled hnext h' (labelled.size_eq ▸ hsize)
      | none =>
          have hfresh : (labels ++ [v ++ [c]])[tree.nodes.size]? = some (v ++ [c]) := by
            rw [labelled.size_eq, List.getElem?_concat_length]
          obtain ⟨t', hfollow, h'⟩ := h.follow_none hlt hchild
          rw [hfollow]
          exact ih (labelled.grow hnode hchild) hfresh h' (by simp [grow])

/-- **A word is added to the tables as it is to the tree.** -/
theorem insert {labels words : List (List Char)} (labelled : tree.Labelled labels words)
    (h : Listing tree read t) (word : List Char) :
    ∃ t', t.insert word = .ok t' ∧ Listing (tree.insert word) (read ++ word) t' := by
  obtain ⟨last, t', hwalk, hlast, h'⟩ := h.walk labelled labelled.root word
  refine ⟨_, ?_, h'⟩
  rw [Tables.insert, hwalk]
  simp only [Guarded.require_of hlast]
  rfl

/-- The edges of the second table are those of the nodes, in the same order. -/
theorem listed_eq (h : Listing tree read t) :
    t.listed = Dfa.rowEdges (tree.nodes.toList.map fun n => n.children.toList) := by
  have sorted : t.listed.Pairwise Dfa.Before :=
    List.pairwise_map.2 (t.edges.ordered_keys_toList.imp fun hlt => byNode_eq_lt.1 hlt)
  have sorted' : (Dfa.rowEdges (tree.nodes.toList.map fun n => n.children.toList)).Pairwise
      Dfa.Before := by
    refine Dfa.rowEdges_sorted fun row hrow => ?_
    obtain ⟨n, -, rfl⟩ := List.mem_map.1 hrow
    exact n.children.ordered_keys_toList.imp fun hlt => compareOfLessAndEq_eq_lt.1 hlt
  refine sorted.eq_of_mem_iff sorted' ?_
  rintro ⟨s, c, next⟩
  rw [Tables.mem_listed, h.edges_eq, Dfa.mem_rowEdges_iff, child?]
  simp only [List.getElem?_map, Array.getElem?_toList, Option.map_eq_some_iff]
  cases tree.nodes[s]? with
  | none => simp
  | some n => simp [Std.ExtTreeMap.mem_toList_iff_getElem?_eq_some]

end Listing

namespace Tables

/-- **The tables of a list of words are those of its tree**, and they are made without a lookup
that fails. -/
theorem exists_ofWords (words : List (List Char)) :
    ∃ t, ofWords words = .ok t ∧ Listing (Trie.ofWords words) words.flatten t := by
  induction words using List.reverseRecOn with
  | nil => exact ⟨empty, rfl, .empty⟩
  | append_singleton words word ih =>
      obtain ⟨t, hwords, h⟩ := ih
      obtain ⟨t', hword, h'⟩ := h.insert (ofWords_labelled words) word
      refine ⟨t', ?_, ?_⟩
      · rw [ofWords, List.foldlM_append, ← ofWords, hwords, Guarded.ok_bind, List.foldlM_cons,
          hword]
        rfl
      · rw [Trie.ofWords, List.foldl_concat, List.flatten_concat]
        exact h'

/-- **The automaton of a list of words is the same**, with nodes or with tables. -/
theorem toDfa_eq (words : List (List Char)) : toDfa words = Guarded.lift (Trie.toDfa words) := by
  obtain ⟨t, hwords, h⟩ := exists_ofWords words
  have halphabet : t.alphabet = .ofList words.flatten := by
    ext c
    rw [h.mem_alphabet, Alphabet.mem_ofList]
  have hmarks : t.marks.toList = (Trie.ofWords words).nodes.toList.map (·.isWord) := by
    rw [h.marks_eq, Array.toList_map]
  rw [toDfa, hwords, Guarded.ok_bind, Trie.toDfa, h.listed_eq, halphabet, hmarks, ← List.zip_map',
    Dfa.ofRows_zip _ (by simp)]

end Tables

/-! ### Exactness -/

/-- There are as many beginnings as are listed, since none is listed twice. -/
theorem ncard_beginnings (words : List (List Char)) :
    {v | v = [] ∨ ∃ w ∈ words, v <+: w}.ncard = (beginnings words).length := by
  have listed : {v | v = [] ∨ ∃ w ∈ words, v <+: w} = ((beginnings words).toFinset : Set _) := by
    ext v
    simp [mem_beginnings]
  rw [listed, Set.ncard_coe_finset, List.toFinset_card_of_nodup (ofWords_labelled words).nodup]

/-- **The prefix tree of a list of words is exact.**  Its automaton is always made, with nodes or
with tables.  It has a state for every beginning of a word, in the order in which the beginnings
first occur, and each state is reached by its beginning and by no other word.  It knows the
symbols of the words, and it accepts the words and nothing else. -/
theorem toDfa_exact (words : List (List Char)) :
    ∃ dfa, toDfa words = .ok dfa ∧ Tables.toDfa words = .ok dfa ∧
      dfa.start = 0 ∧
      dfa.numStates = {v | v = [] ∨ ∃ w ∈ words, v <+: w}.ncard ∧
      dfa.numStates ≤ words.flatten.length + 1 ∧
      (∀ v, (∃ s, dfa.run v = some s) ↔ v = [] ∨ ∃ w ∈ words, v <+: w) ∧
      (∀ s < dfa.numStates, ∃! v, dfa.run v = some s) ∧
      (∀ v s, dfa.run v = some s ↔ (beginnings words)[s]? = some v) ∧
      (∀ c, c ∈ dfa.alphabet ↔ ∃ w ∈ words, c ∈ w) ∧
      ∀ w, dfa.accepts w = true ↔ w ∈ words := by
  obtain ⟨dfa, hok, spelled⟩ := toDfa_ok words
  have htables : Tables.toDfa words = .ok dfa := by
    rw [Tables.toDfa_eq, hok, Guarded.lift_ok]
  refine ⟨dfa, hok, htables, spelled.start_eq, ?_, ?_, fun v => ?_, fun s hs => ?_,
    spelled.run_iff, fun c => ?_, spelled.accepts_iff⟩
  · rw [spelled.numStates_eq, ncard_beginnings]
  · rw [spelled.numStates_eq]
    exact length_beginnings_le words
  · rw [← spelled.mem_labels, List.mem_iff_getElem?]
    exact exists_congr fun s => spelled.run_iff v s
  · rw [spelled.numStates_eq] at hs
    have hlabel := List.getElem?_eq_getElem hs
    refine ⟨_, (spelled.run_iff _ s).2 hlabel, fun v hv => ?_⟩
    exact Option.some.inj (((spelled.run_iff v s).1 hv).symm.trans hlabel)
  · rw [spelled.alphabet_eq, Alphabet.mem_ofList, List.mem_flatten]

end Trie

end PatternAutomata
