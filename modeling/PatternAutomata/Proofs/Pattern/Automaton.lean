import PatternAutomata.Proofs.Nfa.Stored
import PatternAutomata.Proofs.Pattern.Denotation
import PatternAutomata.Proofs.Pattern.Reading

/-!
# The automaton of a pattern

A pattern has an automaton only if it is in the grammar.  The automaton accepts the language of
the pattern and knows the symbols that the pattern is written with (`Nfa.ofPattern_denotes`).  A
pattern of the grammar is refused only where a bound is too low (`Nfa.ofPattern_accepts_grammar`).

## From texts to automata

Everything has been prepared: what is read is derived in the grammar, a derivation denotes a tree,
and the automaton of a tree accepts its words.  The derivation is unique, so a pattern denotes one
language, and it may be said of the derivation that it is the one of the pattern.

## Which bounds, and how low

The second theorem names every bound.  Depth and the sizes of classes are assumed to be within
theirs; then the only causes left are numbers of states.  Such a refusal names a number that is
beyond the configured bound, or beyond the capacity, and that is not beyond the number of states
of the whole automaton.  It follows that a pattern whose automaton is within both is read, and
without these inequalities the statement would allow a reader that refuses everything.
-/

namespace PatternAutomata

open Error (Yields)

variable {config : Config} {strategy : Strategy} {pattern : List Char}

/-- The automaton of a pattern is that of the tree of its derivation.  The tree was made while
reading and is not kept. -/
theorem Nfa.exists_derivation {nfa : Nfa} (h : ofPattern config strategy pattern = .ok nfa) :
    ∃ e : Derivation .expression, Unanchored pattern e.text ∧
      nfa = (e.regex config.dotAlphabet).toNfa := by
  obtain ⟨regex, hparse, rfl⟩ := exists_regex h
  obtain ⟨e, he, rfl⟩ := Regex.exists_derivation hparse
  exact ⟨e, he, rfl⟩

/-- **The automaton of a pattern is for what the pattern denotes.**  The pattern has one
derivation.  The automaton accepts the words of the language of this derivation, whatever symbols
they hold, and its alphabet are the symbols that the atoms are written with.  A symbol is in the
alphabet even if no word of the language has it. -/
theorem Nfa.ofPattern_denotes {nfa : Nfa} (h : ofPattern config strategy pattern = .ok nfa) :
    ∃ e : Derivation .expression, Unanchored pattern e.text ∧
      (∀ e' : Derivation .expression, Unanchored pattern e'.text → e' = e) ∧
      (∀ w, strategy.accepts nfa w = true ↔ w ∈ e.language config.dotAlphabet) ∧
      (∀ c, c ∈ nfa.alphabet ↔ e.Writes config.dotAlphabet c) := by
  obtain ⟨e, he, rfl⟩ := exists_derivation h
  refine ⟨e, he, fun e' he' => Derivation.unique he' he, ?_, ?_⟩
  · intro w
    rw [Strategy.accepts_eq, Regex.accepts_toNfa, e.matches_regex]
  · intro c
    rw [Regex.alphabet_toNfa, e.mem_symbols_regex]

/-- A pattern with stacked signs of repetition, an anchor and a bracket that closes nothing. -/
theorem Nfa.ofPattern_denotes_of_stacked :
    let config : Config := { dotAlphabet := .ofList ['b'] }
    let pattern := ['a', '+', '?', '|', ']', '.', '*', '$']
    ∃ nfa, ofPattern config .bit pattern = .ok nfa ∧
      ∃ e : Derivation .expression, Unanchored pattern e.text ∧
        (∀ e' : Derivation .expression, Unanchored pattern e'.text → e' = e) ∧
        (∀ w, Strategy.bit.accepts nfa w = true ↔ w ∈ e.language config.dotAlphabet) ∧
        (∀ c, c ∈ nfa.alphabet ↔ e.Writes config.dotAlphabet c) := by
  intro config pattern
  obtain ⟨nfa, hnfa⟩ := Error.exists_ok_of_isSome
    (show (ofPattern config .bit pattern).toOption.isSome = true by cbv)
  exact ⟨nfa, hnfa, ofPattern_denotes hnfa⟩

/-- **Patterns are read iff they are in the grammar**, up to bounds.  A pattern without a
derivation is refused.  A pattern with one, whose groups are not nested too deep and whose classes
are not too large, is refused only because its automaton would have too many states: the refusal
names a number of states that is beyond the bound, and the whole automaton would have at least as
many.  So a pattern whose automaton is within the bounds is never refused. -/
theorem Nfa.ofPattern_accepts_grammar (config : Config) (strategy : Strategy)
    (pattern : List Char) :
    ((¬ ∃ e : Derivation .expression, Unanchored pattern e.text) →
      ∃ error, ofPattern config strategy pattern = .error error) ∧
    (∀ e : Derivation .expression, Unanchored pattern e.text →
      e.depth ≤ config.maxNestingDepth →
      (∀ cls ∈ e.classes, ¬ cls.Trips config.maxClassSize) →
      (∃ nfa, ofPattern config strategy pattern = .ok nfa) ∨
      (∃ states, ofPattern config strategy pattern =
          .error (.stateLimitExceeded states config.maxNfaStates) ∧
        config.maxNfaStates < states ∧ states ≤ (e.regex config.dotAlphabet).states) ∨
      (strategy = .bit ∧ ∃ requested, ofPattern config strategy pattern =
          .error (.capacityExceeded DenseSet.capacity requested) ∧
        DenseSet.capacity < requested ∧
        requested ≤ (e.regex config.dotAlphabet).states)) := by
  constructor
  · intro underivable
    cases h : ofPattern config strategy pattern with
    | error error => exact ⟨error, rfl⟩
    | ok nfa =>
        obtain ⟨e, he, -⟩ := exists_derivation h
        exact absurd ⟨e, he⟩ underivable
  · intro e he hdepth hclasses
    -- parentheses and classes are within their limits, so what is left to refuse the text is its
    -- states
    have hparse : Yields ((⟨config.maxNfaStates, strategy⟩ : Ceiling).Refuses
        (e.regex config.dotAlphabet).states) (Regex.parse config strategy pattern)
        (· = e.regex config.dotAlphabet) :=
      Regex.parse_yields_of_depth he (fun _ h => h)
        (fun cls hcls => Class.readable_of_not_trips (hclasses cls hcls)) hdepth
    rw [ofPattern]
    cases hread : Regex.parse config strategy pattern with
    | ok regex => exact .inl ⟨regex.toNfa, rfl⟩
    | error error =>
        rw [hread] at hparse
        rcases Ceiling.Refuses.cases hparse with
          ⟨states, rfl, hbounds⟩ | ⟨rfl, requested, rfl, hbounds⟩
        · exact .inr (.inl ⟨states, rfl, hbounds⟩)
        · exact .inr (.inr ⟨rfl, requested, rfl, hbounds⟩)

/-- A backslash with nothing after it, and a class in a group, both as large as may be.  Two states
are enough for the latter, so the bounds leave nothing but that it is read. -/
theorem Nfa.ofPattern_accepts_grammar_of_group :
    let config : Config := { dotAlphabet := ∅, maxNestingDepth := 1, maxClassSize := 3 }
    let pattern := ['(', '[', 'a', '-', 'c', ']', ')']
    (¬ ∃ e : Derivation .expression, Unanchored ['\\'] e.text) ∧
    (∃ error, ofPattern config .bit ['\\'] = .error error) ∧
    (∃ e : Derivation .expression, Unanchored pattern e.text ∧ e.depth = 1 ∧
      ∀ cls ∈ e.classes, ¬ cls.Trips config.maxClassSize) ∧
    ∃ nfa, ofPattern config .bit pattern = .ok nfa := by
  intro config pattern
  have underivable : ¬ ∃ e : Derivation .expression, Unanchored ['\\'] e.text := by
    rintro ⟨e, he⟩
    have hclosed := e.closed 0 ['a']
    rw [← Body.text_ofPattern.1 he] at hclosed
    exact absurd hclosed (by decide)
  let cls : Class :=
    { items := [.range ⟨'a', false⟩ ⟨'c', false⟩]
      nonempty := by decide
      legal := by decide
      ascending := by decide
      unambiguous := trivial
      affirmative := by decide }
  let e : Derivation .expression := .alternative (.sequence (.one (.once (.group
    (.alternative (.sequence (.one (.once (.bracket cls)))))))))
  have he : Unanchored pattern e.text := Body.text_ofPattern.2 (by decide)
  have hclasses : ∀ cls ∈ e.classes, ¬ cls.Trips config.maxClassSize := by
    intro other hother
    rw [List.mem_singleton.1 hother]
    rintro ⟨front, item, back, heq, hexceeds⟩
    cases front with
    | nil =>
        obtain ⟨rfl, -⟩ := List.cons.inj heq
        exact absurd hexceeds (by decide)
    | cons _ front =>
        have := congrArg List.length heq
        simp [cls] at this
  refine ⟨underivable, (ofPattern_accepts_grammar config .bit ['\\']).1 underivable,
    ⟨e, he, rfl, hclasses⟩, ?_⟩
  have hstates : (e.regex config.dotAlphabet).states = 2 := rfl
  rcases (ofPattern_accepts_grammar config .bit pattern).2 e he (Nat.le_refl 1) hclasses with
    hread | ⟨states, -, hlt, hle⟩ | ⟨-, requested, -, hlt, hle⟩
  · exact hread
  · exact absurd (hlt.trans_le (hle.trans_eq hstates)) (by decide)
  · exact absurd (hlt.trans_le (hle.trans_eq hstates)) (by decide)

end PatternAutomata
