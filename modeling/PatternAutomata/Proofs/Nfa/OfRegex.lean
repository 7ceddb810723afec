import PatternAutomata.Nfa.OfRegex
import PatternAutomata.Proofs.Error
import PatternAutomata.Proofs.Nfa.Operators

/-!
# The automaton of a regular expression

The automaton that is built for a tree accepts the words that the tree denotes
(`Regex.accepts_toNfa`), and knows the symbols that the tree is written with
(`Regex.alphabet_toNfa`).  It has as many states as are counted by the tree
(`Regex.numStates_toNfa`), which is what the ceilings are compared to.

The automaton of a pattern is that of a tree (`Nfa.exists_regex`), although it is made while the
pattern is read and no tree is kept.  So the proofs are by induction over trees, with one case for
each operator, and what each operator does was shown before.
-/

namespace PatternAutomata.Regex

variable {l r : Regex} {w : List Char}

/-! ### The words of a tree, operator by operator -/

theorem matches_empty : Matches .empty w ↔ w = [] := by
  constructor
  · rintro ⟨⟩
    rfl
  · rintro rfl
    exact .empty

theorem matches_oneOf {symbols : Alphabet} :
    Matches (.oneOf symbols) w ↔ ∃ c ∈ symbols, w = [c] := by
  constructor
  · intro h
    cases h with
    | @oneOf _ c hc => exact ⟨c, hc, rfl⟩
  · rintro ⟨c, hc, rfl⟩
    exact .oneOf hc

theorem matches_union : Matches (.union l r) w ↔ Matches l w ∨ Matches r w := by
  constructor
  · intro h
    cases h with
    | unionLeft h => exact Or.inl h
    | unionRight h => exact Or.inr h
  · rintro (h | h)
    · exact .unionLeft h
    · exact .unionRight h

theorem matches_concat :
    Matches (.concat l r) w ↔ ∃ u v, w = u ++ v ∧ Matches l u ∧ Matches r v := by
  constructor
  · intro h
    cases h with
    | @concat _ _ u v hu hv => exact ⟨u, v, rfl, hu, hv⟩
  · rintro ⟨u, v, rfl, hu, hv⟩
    exact .concat hu hv

/-- A word of a loop is a sequence of words of its operand.  The rules for loops add one word in
front; this collects them. -/
theorem matches_star :
    Matches (.star r) w ↔
      ∃ parts : List (List Char), w = parts.flatten ∧ ∀ part ∈ parts, Matches r part := by
  constructor
  · intro h
    generalize hx : Regex.star r = x at h
    induction h with
    | starNil => exact ⟨[], rfl, fun part hpart => by cases hpart⟩
    | @starMore _ u v hu _ _ ih =>
        cases hx
        obtain ⟨parts, rfl, hparts⟩ := ih rfl
        refine ⟨u :: parts, rfl, fun part hpart => ?_⟩
        rcases List.mem_cons.1 hpart with rfl | hpart
        · exact hu
        · exact hparts part hpart
    | _ => cases hx
  · rintro ⟨parts, rfl, hparts⟩
    induction parts with
    | nil => exact .starNil
    | cons u parts ih =>
        exact .starMore (hparts u List.mem_cons_self)
          (ih fun part hpart => hparts part (List.mem_cons_of_mem _ hpart))

theorem matches_plus :
    Matches (.plus r) w ↔ ∃ u v, w = u ++ v ∧ Matches r u ∧ Matches (.star r) v := by
  constructor
  · intro h
    cases h with
    | @plus _ u v hu hv => exact ⟨u, v, rfl, hu, hv⟩
  · rintro ⟨u, v, rfl, hu, hv⟩
    exact .plus hu hv

theorem matches_optional : Matches (.optional r) w ↔ w = [] ∨ Matches r w := by
  constructor
  · intro h
    cases h with
    | optionalNone => exact Or.inl rfl
    | optionalSome h => exact Or.inr h
  · rintro (rfl | h)
    · exact .optionalNone
    · exact .optionalSome h

/-! ### The automaton of a tree -/

theorem wellFormed_toNfa (r : Regex) : r.toNfa.WellFormed := by
  induction r with
  | empty => exact .epsilon
  | oneOf symbols => exact .oneOf _
  | union l r ihl ihr => exact ihl.union ihr
  | concat l r ihl ihr => exact ihl.concat ihr
  | star r ih => exact ih.star
  | plus r ih => exact ih.plus
  | optional r ih => exact ih.optional

theorem numStates_toNfa (r : Regex) : r.toNfa.numStates = r.states := by
  induction r with
  | empty => rfl
  | oneOf symbols => rfl
  | union l r ihl ihr => rw [toNfa, Nfa.numStates_union, ihl, ihr, states]
  | concat l r ihl ihr => rw [toNfa, Nfa.numStates_concat, ihl, ihr, states]
  | star r ih => rw [toNfa, (Nfa.wraps_star r.wellFormed_toNfa).numStates_eq, ih, states]
  | plus r ih =>
      rw [toNfa, Nfa.plus, Nfa.numStates_concat,
        (Nfa.wraps_star r.wellFormed_toNfa).numStates_eq, ih, states]
      omega
  | optional r ih => rw [toNfa, (Nfa.wraps_optional r.wellFormed_toNfa).numStates_eq, ih, states]

theorem alphabet_toNfa (r : Regex) : r.toNfa.alphabet = r.symbols := by
  induction r with
  | empty => rfl
  | oneOf symbols =>
      ext c
      show c ∈ Alphabet.ofList symbols.toList ↔ _
      rw [Alphabet.mem_ofList, Std.ExtTreeSet.mem_toList]
      rfl
  | union l r ihl ihr | concat l r ihl ihr =>
      show l.toNfa.alphabet ∪ r.toNfa.alphabet = _
      rw [ihl, ihr]
      rfl
  | star r ih | optional r ih => exact ih
  | plus r ih =>
      ext c
      show c ∈ r.toNfa.alphabet ∪ r.toNfa.alphabet ↔ _
      rw [Std.ExtTreeSet.mem_union_iff, or_self, ih]
      rfl

/-- **The automaton of a tree accepts the words of the tree**, by induction over the tree. -/
theorem accepts_toNfa (r : Regex) (w : List Char) :
    r.toNfa.accepts w = true ↔ r.Matches w := by
  induction r generalizing w with
  | empty =>
      rw [matches_empty]
      exact Nfa.accepts_epsilon
  | oneOf symbols =>
      rw [matches_oneOf, toNfa, Nfa.accepts_oneOf]
      simp only [Std.ExtTreeSet.mem_toList]
  | union l r ihl ihr =>
      rw [matches_union, toNfa, Nfa.accepts_union l.wellFormed_toNfa r.wellFormed_toNfa, ihl w,
        ihr w]
  | concat l r ihl ihr =>
      rw [matches_concat, toNfa, Nfa.accepts_concat l.wellFormed_toNfa r.wellFormed_toNfa]
      simp only [ihl, ihr]
  | star r ih =>
      rw [matches_star, toNfa, Nfa.accepts_star r.wellFormed_toNfa]
      simp only [ih]
  | plus r ih =>
      rw [matches_plus, toNfa, Nfa.accepts_plus r.wellFormed_toNfa]
      simp only [ih, matches_star]
  | optional r ih =>
      rw [matches_optional, toNfa, Nfa.accepts_optional r.wellFormed_toNfa, ih w]

end PatternAutomata.Regex

namespace PatternAutomata.Nfa

variable {config : Config} {strategy : Strategy} {pattern : List Char} {nfa : Nfa}

/-- **The automaton of a pattern is that of a tree**, the one that the pattern is parsed as within
the same limits. -/
theorem exists_regex (h : ofPattern config strategy pattern = .ok nfa) :
    ∃ regex, Regex.parse config strategy pattern = .ok regex ∧ regex.toNfa = nfa := by
  obtain ⟨regex, hparse, hok⟩ := Error.bind_eq_ok_iff.1 h
  exact ⟨regex, hparse, Except.ok.inj hok⟩

theorem wellFormed_of_ofPattern (h : ofPattern config strategy pattern = .ok nfa) :
    nfa.WellFormed := by
  obtain ⟨regex, -, rfl⟩ := exists_regex h
  exact regex.wellFormed_toNfa

end PatternAutomata.Nfa
