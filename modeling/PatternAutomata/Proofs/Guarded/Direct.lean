import PatternAutomata.Proofs.Direct
import PatternAutomata.Proofs.Guarded.Quotient

/-!
# Guarded automata of simple shapes

A prefix tree is looked up node by node.  The node that a symbol leads to is always there, and so
is the node that is marked at the end of a word.

## Why a node is there

The numbers of nodes are kept with the symbols that lead to them, and a number is used as an index
without asking whether it is one.  `Trie.Labelled` gives every node the word that leads to it, and
the children of a node have the words with one more symbol; so a child is a node.  This is an
invariant of adding words (`Guarded.insertFrom_eq`), and the tree of a list of words is made
without a lookup out of range because the empty tree has it.

Of the other shapes no tree is made.  `Guarded.outline` passes them on as they are, and
`Guarded.direct?_eq` is about all shapes, since the automaton of any of them is completed and
minimized.
-/

namespace PatternAutomata.Guarded

/-! ### Prefix trees -/

/-- Marks the beginning at a node as a word.  The node has to be there, as nothing would be marked
otherwise. -/
def mark (t : Trie) (node : Nat) : Guarded Trie := do
  require (node < t.nodes.size)
  return t.mark node

/-- Adds the rest of a word from a node on.  A node that is added gets the next number, and the
walk goes on from this number. -/
def insertFrom (t : Trie) (node : Nat) : List Char → Guarded Trie
  | [] => mark t node
  | c :: rest => do
    let n ← expect t.nodes[node]?
    match n.children[c]? with
    | some next => insertFrom t next rest
    | none => insertFrom (t.grow node c) t.nodes.size rest

/-- The automaton of a list of words, by way of the tree of their beginnings. -/
def trie (words : List (List Char)) : Guarded Dfa := do
  let t ← words.foldlM (fun t word => insertFrom t 0 word) .empty
  lift (Dfa.ofRows (.ofList words.flatten)
    (t.nodes.toList.map fun n => (n.isWord, n.children.toList)))

section

variable {t : Trie} {labels words : List (List Char)} {v : List Char} {i : Nat}

/-- **A word is added without a lookup out of range.**  The node that the walk is at has the label
`v`; which label it is does not matter, only that there is one. -/
theorem insertFrom_eq (h : t.Labelled labels words) (hi : labels[i]? = some v)
    (rest : List Char) : insertFrom t i rest = .ok (t.insertFrom i rest) := by
  induction rest generalizing t labels i v with
  | nil =>
      have hlt := (List.getElem?_eq_some_iff.1 hi).1
      rw [insertFrom, mark, require_of (h.size_eq ▸ hlt)]
      rfl
  | cons c rest ih =>
      have hlt := (List.getElem?_eq_some_iff.1 hi).1
      rw [← h.size_eq] at hlt
      have hnode := Array.getElem?_eq_getElem hlt
      have hchild : t.child? i c = t.nodes[i].children[c]? := by
        rw [Trie.child?, hnode]
      rw [insertFrom, hnode, expect_some, ok_bind, ← hchild, Trie.insertFrom]
      cases hnext : t.child? i c with
      | some next => exact ih h ((h.child?_iff hi).1 hnext)
      | none =>
          -- The node that is added has the number that the walk goes on from.
          have hfresh : (labels ++ [v ++ [c]])[t.nodes.size]? = some (v ++ [c]) := by
            rw [h.size_eq, List.getElem?_concat_length]
          exact ih (h.grow hi hnext) hfresh

theorem trie_eq (words : List (List Char)) : trie words = lift (Trie.toDfa words) := by
  have tree : words.foldlM (fun t word => insertFrom t 0 word) .empty =
      .ok (Trie.ofWords words) := by
    -- Every tree on the way has its nodes labelled by what leads to them.
    refine foldlM_eq_ok (fun t => ∃ labels words, t.Labelled labels words) ?_
      ⟨_, _, Trie.Labelled.empty⟩
    rintro t ⟨labels, words, h⟩ word -
    exact ⟨insertFrom_eq h h.root word, _, _, h.insert word⟩
  rw [trie, tree]
  rfl

end

/-! ### Shapes -/

/-- An automaton for a shape in which the edges that lead nowhere are missing.  Trees are made of
those shapes that have words to tell. -/
def outline (config : Config) : Shape → Guarded Dfa
  | .literal text => trie [text]
  | .anchoredStart text => trie [text]
  | .anchoredEnd text => trie [text]
  | .alternation left right => trie [left, right]
  | .star c => lift ((Shape.star c).outline config)
  | .bracket text => lift ((Shape.bracket text).outline config)

/-- The minimal automaton of a shape.  It is checked against the ceiling after it was completed,
with the dead state counted. -/
def ofShape (config : Config) (shape : Shape) : Guarded Dfa := do
  let (whole, _) ← lift (← outline config shape).complete
  if config.maxDfaStates < whole.numStates then
    throw (.refused (.stateLimitExceeded whole.numStates config.maxDfaStates))
  minimize whole

/-- The minimal automaton of a pattern of a simple shape, if it can be made within bounds. -/
def direct? (config : Config) (pattern : List Char) : Guarded (Option Dfa) :=
  match Shape.ofPattern? pattern with
  | none => return none
  | some shape => attempt (ofShape config shape)

theorem outline_eq (config : Config) (shape : Shape) :
    outline config shape = lift (shape.outline config) := by
  cases shape with
  | literal text => exact trie_eq _
  | anchoredStart text => exact trie_eq _
  | anchoredEnd text => exact trie_eq _
  | alternation left right => exact trie_eq _
  | star c => rfl
  | bracket text => rfl

theorem ofShape_eq {config : Config} {pattern : List Char} {shape : Shape}
    (fits : Shape.Fits pattern shape) :
    ofShape config shape = lift (shape.toDfa config) := by
  rw [ofShape, Shape.toDfa, outline_eq]
  cases houtline : shape.outline config with
  | error e => rfl
  | ok d =>
      obtain ⟨e, -, recognizes⟩ := Shape.outline_recognizes fits houtline
      obtain ⟨whole, dead, hcomplete, hwhole, -⟩ := recognizes.complete
      simp only [lift_ok, ok_bind, hcomplete, Error.ok_bind]
      by_cases hlarge : config.maxDfaStates < whole.numStates
      · rw [if_pos hlarge, if_pos hlarge]
        rfl
      · rw [if_neg hlarge, if_neg hlarge]
        exact minimize_eq hwhole.pos

/-- **The automaton of a pattern of a simple shape is made without a lookup out of range.**  It
cannot be refused either, since refusals are passed over. -/
theorem direct?_eq (config : Config) (pattern : List Char) :
    direct? config pattern = .ok (Dfa.direct? config pattern) := by
  rw [direct?, Dfa.direct?]
  cases hshape : Shape.ofPattern? pattern with
  | none => rfl
  | some shape =>
      simp only [ofShape_eq (Shape.ofPattern?_eq_some_iff.1 hshape)]
      exact attempt_lift _

end PatternAutomata.Guarded
