import PatternAutomata.Dfa.Basic

/-!
# Prefix trees

A finite list of words is accepted by an automaton with a state for every beginning of one of the
words.  A `Trie` is a tree of beginnings; `Trie.insert` walks down along a word as far as it is
there and grows a branch for the rest, and `Trie.toDfa` takes the nodes for states.

Nodes are numbered in the order in which their beginnings first occur, the empty beginning being
node zero.  So the numbers depend on the order of the words, and on nothing else; a word that is a
beginning of an earlier one adds no node and only marks one.

The automaton is not complete, and it is not minimal either, since words that end alike do not
share their ends.  Both are left to what is done with it.
-/

namespace PatternAutomata

/-- A beginning of some words.  Its own symbols are not kept; they are found on the way down from
the root. -/
structure Trie.Node where
  /-- Whether the beginning is a word itself. -/
  isWord : Bool
  /-- The longer beginnings by one symbol. -/
  children : Std.ExtTreeMap Char Nat

/-- The beginnings of some words. -/
structure Trie where
  nodes : Array Trie.Node

namespace Trie

/-- The tree with the empty beginning alone. -/
def empty : Trie := ⟨#[⟨false, ∅⟩]⟩

/-- The node that a symbol leads to, if there is one. -/
def child? (t : Trie) (node : Nat) (c : Char) : Option Nat :=
  match t.nodes[node]? with
  | none => none
  | some n => n.children[c]?

/-- Marks the beginning at a node as a word. -/
def mark (t : Trie) (node : Nat) : Trie :=
  ⟨t.nodes.modify node fun n => { n with isWord := true }⟩

/-- Adds a node below another. -/
def grow (t : Trie) (node : Nat) (c : Char) : Trie :=
  let fresh := t.nodes.size
  ⟨(t.nodes.modify node fun n => { n with children := n.children.insert c fresh }).push
    ⟨false, ∅⟩⟩

/-- Adds the rest of a word from a node on.  Where the tree has no branch for the next symbol, the
whole rest is new, one node for each symbol. -/
def insertFrom (t : Trie) (node : Nat) : List Char → Trie
  | [] => t.mark node
  | c :: rest =>
    match t.child? node c with
    | some next => t.insertFrom next rest
    | none =>
      let fresh := t.nodes.size
      (t.grow node c).insertFrom fresh rest

/-- Adds a word. -/
def insert (t : Trie) (word : List Char) : Trie :=
  t.insertFrom 0 word

/-- The tree of a list of words. -/
def ofWords (words : List (List Char)) : Trie :=
  words.foldl insert empty

/-- The automaton with the nodes for states, over the symbols of the words.  The edges of a node
are listed by symbol, so in the alphabet's order and not in that of the words. -/
def toDfa (words : List (List Char)) : Except Error Dfa :=
  Dfa.ofRows (.ofList words.flatten)
    ((ofWords words).nodes.toList.map fun n => (n.isWord, n.children.toList))

end Trie

end PatternAutomata
