import Mathlib.Data.List.Induction
import Mathlib.Data.List.Infix
import Mathlib.Data.List.Nodup
import PatternAutomata.Proofs.Dfa.Building
import PatternAutomata.Proofs.Dfa.Run
import PatternAutomata.Trie

/-!
# What prefix trees accept

The nodes of a prefix tree are the beginnings of its words, each of them once, and its automaton
accepts the words (`Trie.toDfa_ok`).

## Labels

The nodes are labelled with beginnings in a list beside the tree (`Trie.Labelled`).  A list that
only grows at its end keeps the labels of the nodes that there are, as the tree keeps their
numbers.  A node says of its beginning whether it is a word, and its children are those of the
longer beginnings that are there.

## Which beginnings, and in what order

A word adds those of its beginnings that are not there yet, from short to long.  So the labels of
the tree of a list of words are the beginnings in the order in which they first occur
(`Trie.ofWords_labelled`), with repetitions left out.  The order is part of the statement since it
decides the numbers of the states.  It is expressed by functions on lists, and the lemmas about
these come first.

## The automaton

Once the nodes are labelled, a state is reached by its label and by no other word
(`Trie.Labelled.run_iff`).  Acceptance follows, and neither depends on how the words were added.
-/

namespace PatternAutomata

variable {α : Type}

/-- The entries of a list with one entry more. -/
theorem getElem?_concat_eq_some {l : List α} {x y : α} {i : Nat} :
    (l ++ [x])[i]? = some y ↔ l[i]? = some y ∨ (i = l.length ∧ x = y) := by
  rcases Nat.lt_trichotomy i l.length with h | rfl | h
  · rw [List.getElem?_append_left h]
    simp [Nat.ne_of_lt h]
  · rw [List.getElem?_concat_length]
    simp
  · rw [List.getElem?_eq_none (by simp; omega), List.getElem?_eq_none (Nat.le_of_lt h)]
    simp [Nat.ne_of_gt h]

/-! ### Beginnings in order -/

section

variable [BEq α] [LawfulBEq α] {l m : List α} {x : α}

theorem eraseDups_of_nodup (h : m.Nodup) : m.eraseDups = m := by
  induction m with
  | nil => rfl
  | cons x m ih =>
      obtain ⟨hx, hm⟩ := List.nodup_cons.1 h
      have others : m.filter (fun y => !y == x) = m := by
        refine List.filter_eq_self.2 fun y hy => ?_
        simpa using fun heq : y = x => hx (heq ▸ hy)
      rw [List.eraseDups_cons, others, ih hm]

/-- Of a list without repeats, what is new comes after what is there, in its own order. -/
theorem eraseDups_append_of_nodup (h : m.Nodup) :
    (l ++ m).eraseDups = l.eraseDups ++ m.removeAll l.eraseDups := by
  have same : m.removeAll l.eraseDups = m.removeAll l := by
    simp [List.removeAll]
  have distinct : (m.removeAll l).Nodup := h.filter _
  rw [same, List.eraseDups_append, eraseDups_of_nodup distinct]

/-- It makes no difference whether the first of some new entries is there already. -/
theorem concat_append_removeAll (hl : x ∉ l) (hm : x ∉ m) :
    l ++ [x] ++ (x :: m).removeAll (l ++ [x]) = l ++ (x :: m).removeAll l := by
  have others : m.removeAll (l ++ [x]) = m.removeAll l := by
    refine List.filter_congr fun y hy => ?_
    have hne : y ≠ x := fun heq => hm (heq ▸ hy)
    simp [hne]
  rw [List.cons_removeAll, List.cons_removeAll, others]
  simp [hl]

end

theorem nodup_inits (w : List α) : w.inits.Nodup := by
  induction w with
  | nil => simp
  | cons c w ih =>
      rw [List.inits_cons, List.nodup_cons]
      exact ⟨by simp, ih.map fun _ _ h => (List.cons.inj h).2⟩

theorem map_append_inits_cons (v : List α) (c : α) (w : List α) :
    (c :: w).inits.map (v ++ ·) = v :: w.inits.map (v ++ [c] ++ ·) := by
  simp [Function.comp_def]

/-- The ways to go on from `v` along a word begin with `v` itself, which is the only time that it
occurs. -/
theorem exists_map_append_inits (v w : List α) :
    ∃ longer, w.inits.map (v ++ ·) = v :: longer ∧ v ∉ longer := by
  cases w with
  | nil => exact ⟨[], by simp, List.not_mem_nil⟩
  | cons c w => exact ⟨_, map_append_inits_cons v c w, by simp⟩

namespace Trie

/-- **The beginnings of some words**, in the order in which they first occur.  The empty one comes
first, also if there are no words. -/
def beginnings (words : List (List Char)) : List (List Char) :=
  ([] :: words.flatMap List.inits).eraseDups

theorem mem_beginnings {words : List (List Char)} {v : List Char} :
    v ∈ beginnings words ↔ v = [] ∨ ∃ w ∈ words, v <+: w := by
  simp [beginnings]

example : beginnings [['a', 'b'], [], ['a', 'c']] = [[], ['a'], ['a', 'b'], ['a', 'c']] := by
  decide

/-- One more word adds those of its beginnings that are new. -/
theorem beginnings_concat (words : List (List Char)) (w : List Char) :
    beginnings (words ++ [w]) =
      beginnings words ++ w.inits.removeAll (beginnings words) := by
  rw [beginnings, List.flatMap_append, List.flatMap_singleton, ← List.cons_append,
    eraseDups_append_of_nodup (nodup_inits w)]
  rfl

/-- Every beginning but the empty one ends in a symbol of its own, so there are no more of them
than symbols, and one. -/
theorem length_beginnings_le (words : List (List Char)) :
    (beginnings words).length ≤ words.flatten.length + 1 := by
  induction words using List.reverseRecOn with
  | nil => exact Nat.le_refl 1
  | append_singleton words w ih =>
      have hnil : [] ∈ beginnings words := mem_beginnings.2 (.inl rfl)
      have hnew : (w.inits.removeAll (beginnings words)).length ≤ w.length := by
        cases w with
        | nil => simp [List.cons_removeAll, hnil]
        | cons c w =>
            rw [List.inits_cons, List.cons_removeAll, if_neg (by simp [hnil])]
            exact (List.length_filter_le ..).trans (by simp)
      rw [beginnings_concat, List.length_append, List.flatten_concat, List.length_append]
      omega

/-! ### Trees -/

/-- A node stands for the beginning `v`, if `labels` are the beginnings that the nodes stand for. -/
structure Node.StandsFor (labels words : List (List Char)) (v : List Char) (n : Node) : Prop where
  isWord_iff : n.isWord = true ↔ v ∈ words
  child_iff : ∀ c j, n.children[c]? = some j ↔ labels[j]? = some (v ++ [c])

/-- **The nodes of a tree are beginnings of its words**, listed as `labels`.  No label is there
twice, and the beginnings of labels are labels. -/
structure Labelled (t : Trie) (labels words : List (List Char)) : Prop where
  size_eq : t.nodes.size = labels.length
  root : labels[0]? = some []
  nodup : labels.Nodup
  closed : ∀ v c, v ++ [c] ∈ labels → v ∈ labels
  words_mem : ∀ w ∈ words, w ∈ labels
  node : ∀ (i : Nat) (n : Node) (v : List Char), t.nodes[i]? = some n → labels[i]? = some v →
    n.StandsFor labels words v

namespace Labelled

variable {t : Trie} {labels words : List (List Char)} {v : List Char} {i : Nat}

theorem eq_of_label (h : t.Labelled labels words) {j : Nat} (hi : labels[i]? = some v)
    (hj : labels[j]? = some v) : i = j := by
  obtain ⟨hlt, _⟩ := List.getElem?_eq_some_iff.1 hi
  exact (List.getElem?_inj hlt h.nodup).1 (hi.trans hj.symm)

theorem empty : Trie.empty.Labelled [[]] [] where
  size_eq := rfl
  root := rfl
  nodup := List.nodup_singleton _
  closed v c h := by simp at h
  words_mem w h := by simp at h
  node i n v hn hv := by
    have hi : i = 0 := by
      have hlt := (List.getElem?_eq_some_iff.1 hv).1
      simpa using hlt
    subst hi
    have hn : n = ⟨false, ∅⟩ := (Option.some.inj hn).symm
    subst hn
    cases hv
    refine ⟨by simp, ?_⟩
    intro c j
    cases j with
    | zero => simp
    | succ j => simp

/-- Marking a node makes its beginning a word. -/
theorem mark (h : t.Labelled labels words) (hi : labels[i]? = some v) :
    (t.mark i).Labelled labels (words ++ [v]) where
  size_eq := by
    rw [Trie.mark, Array.size_modify]
    exact h.size_eq
  root := h.root
  nodup := h.nodup
  closed := h.closed
  words_mem w hw := by
    rcases List.mem_append.1 hw with hw | hw
    · exact h.words_mem w hw
    · rw [List.mem_singleton.1 hw]
      exact List.mem_of_getElem? hi
  node j n u hn hu := by
    rw [Trie.mark, Array.getElem?_modify] at hn
    by_cases hij : i = j
    · subst hij
      rw [if_pos rfl] at hn
      obtain ⟨n, hnode, rfl⟩ := Option.map_eq_some_iff.1 hn
      rw [hi] at hu
      cases hu
      exact ⟨by simp, (h.node i n v hnode hi).child_iff⟩
    · rw [if_neg hij] at hn
      have hne : u ≠ v := by
        rintro rfl
        exact hij (h.eq_of_label hi hu)
      refine ⟨?_, (h.node j n u hn hu).child_iff⟩
      rw [(h.node j n u hn hu).isWord_iff]
      simp [hne]

/-- A child stands for the longer beginning, and every longer beginning that is there is a child. -/
theorem child?_iff (h : t.Labelled labels words) (hi : labels[i]? = some v) {c : Char} {j : Nat} :
    t.child? i c = some j ↔ labels[j]? = some (v ++ [c]) := by
  have hlt := (List.getElem?_eq_some_iff.1 hi).1
  rw [← h.size_eq] at hlt
  rw [← (h.node i _ v (Array.getElem?_eq_getElem hlt) hi).child_iff, Trie.child?,
    Array.getElem?_eq_getElem hlt]

theorem not_mem_of_child?_eq_none (h : t.Labelled labels words) (hi : labels[i]? = some v)
    {c : Char} (hnone : t.child? i c = none) : v ++ [c] ∉ labels := by
  intro hmem
  obtain ⟨j, hj⟩ := List.getElem?_of_mem hmem
  rw [(h.child?_iff hi).2 hj] at hnone
  cases hnone

/-- A node that is given a child still stands for its beginning. -/
theorem standsFor_parent (h : t.Labelled labels words) {n : Node} {c : Char}
    (hn : n.StandsFor labels words v) (hnew : v ++ [c] ∉ labels) :
    Node.StandsFor (labels ++ [v ++ [c]]) words v
      { n with children := n.children.insert c t.nodes.size } where
  isWord_iff := hn.isWord_iff
  child_iff d j := by
    rw [getElem?_concat_eq_some, Std.ExtTreeMap.getElem?_insert]
    simp only [Std.LawfulEqCmp.compare_eq_iff_eq]
    by_cases hcd : c = d
    · subst hcd
      have hnot : labels[j]? ≠ some (v ++ [c]) := fun hj => hnew (List.mem_of_getElem? hj)
      simp [hnot, h.size_eq, eq_comm]
    · rw [if_neg hcd, hn.child_iff]
      simp [hcd]

/-- The other nodes have the children they had, since the new beginning is none of theirs. -/
theorem standsFor_other {n : Node} {u : List Char} {c : Char} (hn : n.StandsFor labels words u)
    (hne : v ≠ u) : n.StandsFor (labels ++ [v ++ [c]]) words u where
  isWord_iff := hn.isWord_iff
  child_iff d j := by
    rw [getElem?_concat_eq_some, hn.child_iff]
    have hne' : v ++ [c] ≠ u ++ [d] := fun heq => hne (List.append_inj' heq rfl).1
    simp [hne']

/-- A new node stands for its beginning, since no longer beginning has a node yet. -/
theorem standsFor_child (h : t.Labelled labels words) {c : Char} (hnew : v ++ [c] ∉ labels) :
    Node.StandsFor (labels ++ [v ++ [c]]) words (v ++ [c]) ⟨false, ∅⟩ where
  isWord_iff := by
    have hword : v ++ [c] ∉ words := fun hw => hnew (h.words_mem _ hw)
    simp [hword]
  child_iff d j := by
    rw [getElem?_concat_eq_some]
    constructor
    · intro hchild
      simp at hchild
    · rintro (hj | ⟨_, heq⟩)
      · exact absurd (h.closed _ d (List.mem_of_getElem? hj)) hnew
      · simp at heq

/-- A new node stands for a new beginning, which is put at the end of the labels. -/
theorem grow (h : t.Labelled labels words) (hi : labels[i]? = some v) {c : Char}
    (hnone : t.child? i c = none) : (t.grow i c).Labelled (labels ++ [v ++ [c]]) words := by
  have hnew := h.not_mem_of_child?_eq_none hi hnone
  refine ⟨?_, ?_, ?_, ?_, ?_, ?_⟩
  · simp [Trie.grow, h.size_eq]
  · exact getElem?_concat_eq_some.2 (.inl h.root)
  · exact List.nodup_append.2 ⟨h.nodup, List.nodup_singleton _, by
      intro u hu w hw heq
      rw [List.mem_singleton.1 hw] at heq
      exact hnew (heq ▸ hu)⟩
  · intro u d hu
    rcases List.mem_append.1 hu with hu | hu
    · exact List.mem_append_left _ (h.closed u d hu)
    · obtain ⟨rfl, _⟩ := List.append_inj' (List.mem_singleton.1 hu) rfl
      exact List.mem_append_left _ (List.mem_of_getElem? hi)
  · intro w hw
    exact List.mem_append_left _ (h.words_mem w hw)
  · -- a node is the parent, the child, or another one
    intro j n u hn hu
    rw [Trie.grow, Array.getElem?_push, Array.size_modify] at hn
    rcases getElem?_concat_eq_some.1 hu with hu | ⟨rfl, rfl⟩
    · have hj : j ≠ t.nodes.size := by
        have hlt := (List.getElem?_eq_some_iff.1 hu).1
        rw [h.size_eq]
        omega
      rw [if_neg hj, Array.getElem?_modify] at hn
      by_cases hij : i = j
      · subst hij
        rw [if_pos rfl] at hn
        obtain ⟨n, hnode, rfl⟩ := Option.map_eq_some_iff.1 hn
        rw [hi] at hu
        cases hu
        exact h.standsFor_parent (h.node i n v hnode hi) hnew
      · rw [if_neg hij] at hn
        refine standsFor_other (h.node j n u hn hu) ?_
        rintro rfl
        exact hij (h.eq_of_label hi hu)
    · rw [if_pos h.size_eq.symm] at hn
      cases hn
      exact h.standsFor_child hnew

/-- Adding the rest of a word from the node of its beginning.  It is stated for any node, as the
induction is over the rest. -/
theorem insertFrom (h : t.Labelled labels words) (hi : labels[i]? = some v) (rest : List Char) :
    (t.insertFrom i rest).Labelled (labels ++ (rest.inits.map (v ++ ·)).removeAll labels)
      (words ++ [v ++ rest]) := by
  induction rest generalizing t labels i v with
  | nil =>
      have hv := List.mem_of_getElem? hi
      have hnone : (([] : List Char).inits.map (v ++ ·)).removeAll labels = [] := by
        simp [List.cons_removeAll, hv]
      rw [Trie.insertFrom, hnone, List.append_nil, List.append_nil]
      exact h.mark hi
  | cons c rest ih =>
      -- The beginning that the node stands for is there, so the next one is the first to add.
      have hinits : ((c :: rest).inits.map (v ++ ·)).removeAll labels =
          (rest.inits.map (v ++ [c] ++ ·)).removeAll labels := by
        have hv := List.mem_of_getElem? hi
        rw [map_append_inits_cons, List.cons_removeAll, if_neg (by simp [hv])]
      have happend : v ++ c :: rest = v ++ [c] ++ rest := by simp
      rw [Trie.insertFrom, happend, hinits]
      cases hchild : t.child? i c with
      | some next => exact ih h ((h.child?_iff hi).1 hchild)
      | none =>
          have hfresh : (labels ++ [v ++ [c]])[t.nodes.size]? = some (v ++ [c]) := by
            rw [h.size_eq, List.getElem?_concat_length]
          have hnew := h.not_mem_of_child?_eq_none hi hchild
          obtain ⟨longer, hrest, hlonger⟩ := exists_map_append_inits (v ++ [c]) rest
          have hgrown := ih (h.grow hi hchild) hfresh
          rwa [hrest, concat_append_removeAll hnew hlonger, ← hrest] at hgrown

/-- **A word adds those of its beginnings that are not there yet.** -/
theorem insert (h : t.Labelled labels words) (word : List Char) :
    (t.insert word).Labelled (labels ++ word.inits.removeAll labels) (words ++ [word]) := by
  have hinserted := h.insertFrom h.root word
  simp only [List.nil_append, List.map_id'] at hinserted
  exact hinserted

end Labelled

/-- **The nodes of the tree of a list of words are the beginnings of the words**, in the order in
which they first occur. -/
theorem ofWords_labelled (words : List (List Char)) :
    (ofWords words).Labelled (beginnings words) words := by
  induction words using List.reverseRecOn with
  | nil => exact .empty
  | append_singleton words word ih =>
      rw [ofWords, List.foldl_concat, beginnings_concat]
      exact ih.insert word

/-! ### The automaton -/

/-- The nodes of a tree as rows of an automaton, in the order of their numbers. -/
def rows (t : Trie) : List (Bool × List (Char × Nat)) :=
  t.nodes.toList.map fun n => (n.isWord, n.children.toList)

namespace Labelled

variable {t : Trie} {labels words : List (List Char)} {v : List Char} {i : Nat}

theorem length_rows (h : t.Labelled labels words) : t.rows.length = labels.length := by
  simp [rows, h.size_eq]

/-- The row of the node of a beginning: whether it is a word, and its longer beginnings. -/
theorem row_spec (h : t.Labelled labels words) (hi : labels[i]? = some v) :
    ∃ row, t.rows[i]? = some row ∧ (row.1 = true ↔ v ∈ words) ∧
      ∀ c j, (c, j) ∈ row.2 ↔ labels[j]? = some (v ++ [c]) := by
  have hlt := (List.getElem?_eq_some_iff.1 hi).1
  rw [← h.size_eq] at hlt
  have hn := Array.getElem?_eq_getElem hlt
  have hnode := h.node i _ v hn hi
  refine ⟨_, by rw [rows, List.getElem?_map, Array.getElem?_toList, hn, Option.map_some],
    hnode.isWord_iff, ?_⟩
  intro c j
  rw [← hnode.child_iff, Std.ExtTreeMap.mem_toList_iff_getElem?_eq_some]

/-- Every row is that of the node of a beginning, so nothing in the automaton is without a label. -/
theorem exists_label (h : t.Labelled labels words) {row : Bool × List (Char × Nat)}
    (hrow : t.rows[i]? = some row) : ∃ v, labels[i]? = some v := by
  have hlt := (List.getElem?_eq_some_iff.1 hrow).1
  rw [h.length_rows] at hlt
  exact ⟨_, List.getElem?_eq_getElem hlt⟩

variable {alphabet : Alphabet} {dfa : Dfa}

theorem transition_iff (h : t.Labelled labels words) (hlaid : Dfa.Laid alphabet t.rows dfa)
    (hi : labels[i]? = some v) (c : Char) (j : Nat) :
    dfa.transition i c = some j ↔ labels[j]? = some (v ++ [c]) := by
  obtain ⟨row, hrow, _, hchild⟩ := h.row_spec hi
  rw [hlaid.transition_iff, ← hchild]
  constructor
  · rintro ⟨row', hrow', hedge⟩
    rw [hrow] at hrow'
    cases hrow'
    exact hedge
  · intro hedge
    exact ⟨row, hrow, hedge⟩

theorem isAccepting_iff (h : t.Labelled labels words) (hlaid : Dfa.Laid alphabet t.rows dfa)
    (hi : labels[i]? = some v) : dfa.isAccepting i = true ↔ v ∈ words := by
  obtain ⟨row, hrow, hword, _⟩ := h.row_spec hi
  rw [hlaid.isAccepting_iff, ← hword]
  constructor
  · rintro ⟨row', hrow', hacc⟩
    rw [hrow] at hrow'
    cases hrow'
    exact hacc
  · intro hacc
    exact ⟨row, hrow, hacc⟩

/-- **A beginning leads to its node**, and nothing else leads there. -/
theorem run_iff (h : t.Labelled labels words) (hlaid : Dfa.Laid alphabet t.rows dfa)
    (v : List Char) (j : Nat) : dfa.run v = some j ↔ labels[j]? = some v := by
  induction v using List.reverseRecOn generalizing j with
  | nil =>
      rw [Dfa.run_nil, hlaid.start_eq, Option.some.injEq]
      constructor
      · rintro rfl
        exact h.root
      · intro hj
        exact h.eq_of_label h.root hj
  | append_singleton v c ih =>
      rw [Dfa.run_concat, Option.bind_eq_some_iff]
      constructor
      · rintro ⟨i, hi, hj⟩
        exact (h.transition_iff hlaid ((ih i).1 hi) c j).1 hj
      · intro hj
        obtain ⟨i, hi⟩ := List.getElem?_of_mem (h.closed v c (List.mem_of_getElem? hj))
        exact ⟨i, (ih i).2 hi, (h.transition_iff hlaid hi c j).2 hj⟩

/-- The words are accepted, and nothing else. -/
theorem accepts_iff (h : t.Labelled labels words) (hlaid : Dfa.Laid alphabet t.rows dfa)
    (w : List Char) : dfa.accepts w = true ↔ w ∈ words := by
  rw [Dfa.accepts, Dfa.acceptsFrom_iff]
  constructor
  · rintro ⟨j, hj, hacc⟩
    exact (h.isAccepting_iff hlaid ((h.run_iff hlaid w j).1 hj)).1 hacc
  · intro hw
    obtain ⟨j, hj⟩ := List.getElem?_of_mem (h.words_mem w hw)
    exact ⟨j, (h.run_iff hlaid w j).2 hj, (h.isAccepting_iff hlaid hj).2 hw⟩

end Labelled

/-- **The automaton of a list of words**: its states are the beginnings of the words, each of them
once, and it accepts the words. -/
structure Spelled (words labels : List (List Char)) (dfa : Dfa) : Prop where
  built : dfa.Built
  numStates_eq : dfa.numStates = labels.length
  start_eq : dfa.start = 0
  alphabet_eq : dfa.alphabet = .ofList words.flatten
  nodup : labels.Nodup
  mem_labels : ∀ v, v ∈ labels ↔ v = [] ∨ ∃ w ∈ words, v <+: w
  run_iff : ∀ v j, dfa.run v = some j ↔ labels[j]? = some v
  accepts_iff : ∀ w, dfa.accepts w = true ↔ w ∈ words

/-- **A list of words has its automaton**, whatever the words are; repetitions and the empty word
are no exceptions. -/
theorem toDfa_ok (words : List (List Char)) :
    ∃ dfa, toDfa words = .ok dfa ∧ Spelled words (beginnings words) dfa := by
  have h := ofWords_labelled words
  have hends : ∀ row ∈ (ofWords words).rows, ∀ c j, (c, j) ∈ row.2 →
      c ∈ Alphabet.ofList words.flatten ∧ j < (ofWords words).rows.length := by
    intro row hrow c j hedge
    obtain ⟨i, hi⟩ := List.getElem?_of_mem hrow
    obtain ⟨v, hv⟩ := h.exists_label hi
    obtain ⟨row', hrow', _, hchild⟩ := h.row_spec hv
    rw [hi] at hrow'
    cases hrow'
    have hj := (hchild c j).1 hedge
    rw [h.length_rows]
    refine ⟨?_, (List.getElem?_eq_some_iff.1 hj).1⟩
    rcases mem_beginnings.1 (List.mem_of_getElem? hj) with hnil | ⟨w, hw, hprefix⟩
    · simp at hnil
    · exact Alphabet.mem_ofList.2 (List.mem_flatten.2 ⟨w, hw, hprefix.subset (by simp)⟩)
  have hsingle : ∀ row ∈ (ofWords words).rows, ∀ c j k, (c, j) ∈ row.2 → (c, k) ∈ row.2 →
      k = j := by
    intro row hrow c j k hj hk
    obtain ⟨i, hi⟩ := List.getElem?_of_mem hrow
    obtain ⟨v, hv⟩ := h.exists_label hi
    obtain ⟨row', hrow', _, hchild⟩ := h.row_spec hv
    rw [hi] at hrow'
    cases hrow'
    exact h.eq_of_label ((hchild c k).1 hk) ((hchild c j).1 hj)
  obtain ⟨dfa, hok, hlaid⟩ := Dfa.ofRows_ok _ _ hends hsingle
  exact ⟨dfa, hok, hlaid.built, hlaid.numStates_eq.trans h.length_rows, hlaid.start_eq,
    hlaid.alphabet_eq, h.nodup, fun _ => mem_beginnings, h.run_iff hlaid, h.accepts_iff hlaid⟩

end Trie

end PatternAutomata
