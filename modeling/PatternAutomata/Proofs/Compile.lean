import Mathlib
import PatternAutomata.Compile
import PatternAutomata.Proofs.Direct
import PatternAutomata.Proofs.Nfa.OfDfa
import PatternAutomata.Proofs.Pattern.Denotation

/-!
# What a pattern is compiled to

Whatever configuration a pattern is compiled under and whatever way it takes, the automaton is the
minimal one for the language of the pattern.  So a configuration decides whether there is an
automaton, and what `.` stands for, and nothing else.

## Both ways are held against the grammar

There are two ways to an automaton, by way of subsets and directly from a simple shape, and they
are not compared with each other step by step.  Each is shown to lead to the minimal automaton for
whatever derivation the pattern has (`Dfa.minimalFor_of_ofPattern`).  That they agree is then a
consequence of there being one canonical automaton for a language, and a third way would have to
be shown right in the same manner and could not disagree.

## What is matched

`Describes` says that the pattern is in the grammar and that what is matched is what it denotes.
The automaton of a pattern, the one before it is minimized and the nondeterministic one all match
what the pattern denotes, and so does matching an input at once (`accepts_iff_mem_language`).  As
the language is a set of words over all symbols, an input with foreign symbols is covered.

## The canonical form

`ofPattern_canonical` collects what is true of the automaton of a pattern, up to the comparison
with every complete automaton for the same words.  Equality of automata here is `Dfa.Same`: the
same states, edges and alphabet.  What an automaton remembers of its origin may differ between the
two ways.

## With and without shapes

A pattern of a simple shape has no fault, so only a ceiling can keep the general construction from
the automaton that is made directly (`Dfa.general_yields_of_direct?`).  The converse is not so: a
word may be compiled directly where its states are too many for the general construction.
`fastPaths_agree` says what follows for the whole compilation.
-/

namespace PatternAutomata

open Error (Yields IsCeiling)

variable {config : Config} {pattern : List Char}

/-! ### The general construction -/

namespace Dfa

variable {E : Error → Prop} {r : Regex}

/-- The automaton of a pattern for one way of holding sets of states, if it is read at all. -/
theorem unminimizedWith_yields {strategy : Strategy} (hE : ∀ e, IsCeiling e → E e)
    (hparse : Yields E (Regex.parse config strategy pattern) (· = r)) :
    Yields E (unminimizedWith config strategy pattern) fun d => d.Recognizes r ∧ d.Total := by
  have hnfa : Yields E (Nfa.ofPattern config strategy pattern) (· = r.toNfa) := by
    refine hparse.bind ?_
    rintro _ rfl
    exact .ok rfl
  refine hnfa.bind ?_
  rintro _ rfl
  rw [Strategy.determinize_eq]
  rcases Nfa.determinize_spec r.wellFormed_toNfa config.maxDfaStates with ⟨d, hok, h⟩ | herror
  · rw [hok]
    exact .ok ⟨h.recognizes, h.total⟩
  · rw [herror]
    exact hE _ trivial

/-- **The automaton of a pattern before it is minimized**, whatever way of holding sets of states
is taken in the end.  Reading is asked of every strategy, as the one that is tried first may be
given up. -/
theorem unminimized_yields (hE : ∀ e, IsCeiling e → E e)
    (hparse : ∀ strategy, Yields E (Regex.parse config strategy pattern) (· = r)) :
    Yields E (unminimized config pattern) fun d => d.Recognizes r ∧ d.Total := by
  rw [unminimized]
  split
  · exact unminimizedWith_yields hE (hparse _)
  · exact unminimizedWith_yields hE (hparse _)

/-- **The general construction leads to the minimal automaton**, and minimizing is refused for
nothing. -/
theorem general_yields (hE : ∀ e, IsCeiling e → E e)
    (hparse : ∀ strategy, Yields E (Regex.parse config strategy pattern) (· = r)) :
    Yields E (general config pattern) fun d => d.MinimalFor r := by
  refine (unminimized_yields hE hparse).bind ?_
  rintro whole ⟨hwhole, total⟩
  obtain ⟨m, hok, hm⟩ := hwhole.minimize total
  rw [hok]
  exact .ok hm

/-- A pattern that has an automaton is in the grammar. -/
theorem exists_derivation_of_unminimizedWith {strategy : Strategy} {d : Dfa}
    (h : unminimizedWith config strategy pattern = .ok d) :
    ∃ e : Derivation .expression, Unanchored pattern e.text := by
  obtain ⟨nfa, hnfa, _⟩ := Error.bind_eq_ok_iff.1 h
  obtain ⟨r, hparse, -⟩ := Nfa.exists_regex hnfa
  obtain ⟨e, he, _⟩ := Regex.exists_derivation hparse
  exact ⟨e, he⟩

theorem exists_derivation_of_unminimized {d : Dfa} (h : unminimized config pattern = .ok d) :
    ∃ e : Derivation .expression, Unanchored pattern e.text := by
  rw [unminimized] at h
  split at h
  · exact exists_derivation_of_unminimizedWith h
  · exact exists_derivation_of_unminimizedWith h

/-- **The automaton before it is minimized** is for whatever derivation of the pattern. -/
theorem recognizes_of_unminimized {d : Dfa} (h : unminimized config pattern = .ok d)
    {e : Derivation .expression} (he : Unanchored pattern e.text) :
    d.Recognizes (e.regex config.dotAlphabet) := by
  have hyields := unminimized_yields (E := fun _ => True) (fun _ _ => trivial)
    fun strategy => Regex.parse_yields_any he config strategy
  rw [h] at hyields
  exact hyields.1

/-- The automaton of the general construction is the minimal one for whatever derivation of the
pattern. -/
theorem minimalFor_of_general {d : Dfa} (h : general config pattern = .ok d)
    {e : Derivation .expression} (he : Unanchored pattern e.text) :
    d.MinimalFor (e.regex config.dotAlphabet) := by
  have hyields := general_yields (E := fun _ => True) (fun _ _ => trivial)
    fun strategy => Regex.parse_yields_any he config strategy
  rw [h] at hyields
  exact hyields

/-! ### Both ways -/

/-- The two ways to the automaton of a pattern.  From here on it need not be known which was
taken. -/
theorem ofPattern_cases {d : Dfa} (h : ofPattern config pattern = .ok d) :
    direct? config pattern = some d ∨ general config pattern = .ok d := by
  rw [ofPattern] at h
  split at h
  · split at h
    · rename_i m hdirect
      cases h
      exact .inl hdirect
    · exact .inr h
  · exact .inr h

/-- A pattern that has an automaton is in the grammar, whichever way it was made. -/
theorem exists_derivation_of_ofPattern {d : Dfa} (h : ofPattern config pattern = .ok d) :
    ∃ e : Derivation .expression, Unanchored pattern e.text := by
  rcases ofPattern_cases h with hdirect | hgeneral
  · obtain ⟨e, he, _⟩ := direct?_minimalFor hdirect
    exact ⟨e, he.unanchored⟩
  · obtain ⟨whole, hwhole, _⟩ := Error.bind_eq_ok_iff.1 hgeneral
    exact exists_derivation_of_unminimized hwhole

/-- **The automaton of a pattern is the minimal one**, for whatever derivation of the pattern. -/
theorem minimalFor_of_ofPattern {d : Dfa} (h : ofPattern config pattern = .ok d)
    {e : Derivation .expression} (he : Unanchored pattern e.text) :
    d.MinimalFor (e.regex config.dotAlphabet) := by
  rcases ofPattern_cases h with hdirect | hgeneral
  · obtain ⟨e', he', hminimal⟩ := direct?_minimalFor hdirect
    rw [Derivation.unique he he'.unanchored]
    exact hminimal
  · exact minimalFor_of_general hgeneral he

end Dfa

/-- The nondeterministic automaton of a pattern is a minimal deterministic one, seen as a
nondeterministic one. -/
theorem Nfa.exists_minimalFor {n : Nfa} (h : Nfa.minimalOfPattern config pattern = .ok n) :
    (∃ e : Derivation .expression, Unanchored pattern e.text) ∧
      ∃ m : Dfa, n = m.toNfa ∧ ∀ e : Derivation .expression, Unanchored pattern e.text →
        m.MinimalFor (e.regex config.dotAlphabet) := by
  obtain ⟨nfa, hnfa, h⟩ := Error.bind_eq_ok_iff.1 h
  obtain ⟨whole, hwhole, h⟩ := Error.bind_eq_ok_iff.1 h
  obtain ⟨m, hm, h⟩ := Error.bind_eq_ok_iff.1 h
  obtain ⟨_, _, h⟩ := Error.bind_eq_ok_iff.1 h
  cases h
  have hwith : Dfa.unminimizedWith config .hash pattern = .ok whole :=
    Error.bind_eq_ok_iff.2 ⟨nfa, hnfa, hwhole⟩
  refine ⟨Dfa.exists_derivation_of_unminimizedWith hwith, m, rfl, ?_⟩
  intro e he
  have hyields := Dfa.unminimizedWith_yields (E := fun _ => True) (fun _ _ => trivial)
    (Regex.parse_yields_any he config .hash)
  rw [hwith] at hyields
  obtain ⟨m', hm', hminimal⟩ := hyields.1.minimize hyields.2
  rw [hm] at hm'
  cases hm'
  exact hminimal

/-! ### What is matched -/

/-- `Describes any pattern matched`: the pattern is in the grammar, and what is matched is what it
denotes, whatever derivation of it is taken.  The first part is there since the second says
nothing of a pattern without a derivation. -/
structure Describes (any : Alphabet) (pattern : List Char) (matched : List Char → Prop) :
    Prop where
  derivable : ∃ e : Derivation .expression, Unanchored pattern e.text
  matched_iff : ∀ e : Derivation .expression, Unanchored pattern e.text →
    ∀ w, matched w ↔ w ∈ e.language any

/-- **A pattern matches what it denotes**, by whatever way it is compiled.  The words of the
automata are those of the language of the pattern, among all words, and what is said of an input
is whether it is one of them. -/
theorem accepts_iff_mem_language (config : Config) (pattern : List Char) :
    (∀ d, Dfa.ofPattern config pattern = .ok d →
      Describes config.dotAlphabet pattern fun w => d.accepts w = true) ∧
    (∀ w b, config.isMatch pattern w = .ok b →
      (∃ e : Derivation .expression, Unanchored pattern e.text) ∧
        ∀ e : Derivation .expression, Unanchored pattern e.text →
          (b = true ↔ w ∈ e.language config.dotAlphabet)) ∧
    (∀ d, Dfa.unminimized config pattern = .ok d →
      Describes config.dotAlphabet pattern fun w => d.accepts w = true) ∧
    (∀ n, Nfa.minimalOfPattern config pattern = .ok n →
      Describes config.dotAlphabet pattern fun w => n.accepts w = true) := by
  -- the predicate for one word asks the automaton of the pattern, so this is needed twice
  have hpattern : ∀ d, Dfa.ofPattern config pattern = .ok d →
      Describes config.dotAlphabet pattern fun w => d.accepts w = true := by
    intro d hd
    refine ⟨Dfa.exists_derivation_of_ofPattern hd, ?_⟩
    intro e he w
    rw [(Dfa.minimalFor_of_ofPattern hd he).accepts_iff, e.matches_regex]
  refine ⟨hpattern, ?_, ?_, ?_⟩
  · intro w b hb
    obtain ⟨d, hd, hb⟩ := Error.bind_eq_ok_iff.1 hb
    cases hb
    obtain ⟨derivable, matched⟩ := hpattern d hd
    exact ⟨derivable, fun e he => matched e he w⟩
  · intro d hd
    refine ⟨Dfa.exists_derivation_of_unminimized hd, ?_⟩
    intro e he w
    rw [(Dfa.recognizes_of_unminimized hd he).accepts_iff, e.matches_regex]
  · intro n hn
    obtain ⟨derivable, m, rfl, hm⟩ := Nfa.exists_minimalFor hn
    refine ⟨derivable, ?_⟩
    intro e he w
    rw [m.accepts_toNfa, (hm e he).accepts_iff, e.matches_regex]

/-- A pattern with an anchor, a dot and a repetition, which all four ways give the language of. -/
theorem accepts_iff_mem_language_of_anchored :
    let config : Config := { dotAlphabet := .ofList ['a'] }
    let pattern := ['.', '+', '$']
    (∃ d, Dfa.ofPattern config pattern = .ok d ∧
      Describes config.dotAlphabet pattern fun w => d.accepts w = true) ∧
    (∃ b, config.isMatch pattern ['a', 'a'] = .ok b ∧
      ∀ e : Derivation .expression, Unanchored pattern e.text →
        (b = true ↔ ['a', 'a'] ∈ e.language config.dotAlphabet)) ∧
    (∃ d, Dfa.unminimized config pattern = .ok d ∧
      Describes config.dotAlphabet pattern fun w => d.accepts w = true) ∧
    (∃ n, Nfa.minimalOfPattern config pattern = .ok n ∧
      Describes config.dotAlphabet pattern fun w => n.accepts w = true) := by
  intro config pattern
  obtain ⟨hpattern, hmatch, hunminimized, hminimal⟩ := accepts_iff_mem_language config pattern
  obtain ⟨d, hd⟩ := Error.exists_ok_of_isSome
    (show (Dfa.ofPattern config pattern).toOption.isSome = true by cbv)
  obtain ⟨whole, hwhole⟩ := Error.exists_ok_of_isSome
    (show (Dfa.unminimized config pattern).toOption.isSome = true by cbv)
  obtain ⟨n, hn⟩ := Error.exists_ok_of_isSome
    (show (Nfa.minimalOfPattern config pattern).toOption.isSome = true by cbv)
  have hb : config.isMatch pattern ['a', 'a'] = .ok (d.accepts ['a', 'a']) := by
    rw [Config.isMatch, hd]
    rfl
  exact ⟨⟨d, hd, hpattern d hd⟩, ⟨_, hb, (hmatch _ _ hb).2⟩,
    ⟨whole, hwhole, hunminimized whole hwhole⟩, ⟨n, hn, hminimal n hn⟩⟩

/-! ### The canonical form -/

/-- **The automaton of a pattern is the canonical one of its language.**  It is complete, its
states are all reached, told apart by words, and numbered breadth first, and its symbols are those
of the atoms of the pattern.  So patterns for the same words over the same symbols have the same
automaton, under whatever configurations they are compiled, and no complete automaton over the
alphabet with fewer states accepts the same words. -/
theorem ofPattern_canonical {d : Dfa} (h : Dfa.ofPattern config pattern = .ok d) :
    d.isComplete = true ∧ d.start = 0 ∧
    (∀ s, s < d.numStates → ∃ w, d.run w = some s) ∧
    (∀ s t, s < d.numStates → t < d.numStates → s ≠ t →
      ∃ w, d.OverAlphabet w ∧ d.acceptsFrom s w ≠ d.acceptsFrom t w) ∧
    ((∃ e : Derivation .expression, Unanchored pattern e.text) ∧
      ∀ e : Derivation .expression, Unanchored pattern e.text →
        ∀ c, c ∈ d.alphabet ↔ e.Writes config.dotAlphabet c) ∧
    d.BreadthFirst ∧
    (∀ (config' : Config) (pattern' : List Char) (d' : Dfa),
      Dfa.ofPattern config' pattern' = .ok d' →
      ∀ e e' : Derivation .expression, Unanchored pattern e.text →
        Unanchored pattern' e'.text →
        e.language config.dotAlphabet = e'.language config'.dotAlphabet →
        (∀ c, e.Writes config.dotAlphabet c ↔ e'.Writes config'.dotAlphabet c) → d.Same d') ∧
    (∀ (σ : Type) [Fintype σ] (rival : DFA {c // c ∈ d.alphabet} σ),
      (∀ w, w ∈ rival.accepts ↔ d.accepts (w.map Subtype.val) = true) →
      d.numStates ≤ Fintype.card σ) := by
  -- any derivation would do, since the pattern has only one
  obtain ⟨e, he⟩ := Dfa.exists_derivation_of_ofPattern h
  have hd := Dfa.minimalFor_of_ofPattern h he
  have hcanonical := hd.canonical
  have wf := hcanonical.built.wellFormed
  refine ⟨(Dfa.isComplete_iff wf).2 hd.total, hcanonical.start_eq, hcanonical.accessible, ?_,
    ⟨⟨e, he⟩, ?_⟩, hcanonical.breadthFirst, ?_, fun σ _ rival => hcanonical.numStates_le_card rival⟩
  · intro s t hs ht hne
    obtain ⟨w, hw⟩ := hcanonical.reduced s t hs ht hne
    exact ⟨w, wf.overAlphabet_of_separates hw, hw⟩
  · intro e he c
    rw [(Dfa.minimalFor_of_ofPattern h he).alphabet_eq, e.mem_symbols_regex]
  · intro config' pattern' d' h' e e' he he' hlanguage hwrites
    -- languages and symbols are those of the trees, by which minimal automata are determined
    refine (Dfa.minimalFor_of_ofPattern h he).same (Dfa.minimalFor_of_ofPattern h' he') ?_ ?_
    · ext c
      rw [e.mem_symbols_regex, e'.mem_symbols_regex, hwrites]
    · intro w
      rw [e.matches_regex, e'.matches_regex, hlanguage]

/-- A class and an alternative of two letters.  Their words and symbols are the same, so they have
the same automaton, although the class is compiled directly, and the alternative by the general
construction with dense sets. -/
theorem ofPattern_canonical_of_class :
    let config : Config := { dotAlphabet := ∅ }
    let config' : Config := { dotAlphabet := ∅, strategy := some .bit, enableFastPaths := false }
    let pattern := ['[', 'a', '-', 'b', ']']
    let pattern' := ['a', '|', 'b']
    ∃ d d', Dfa.ofPattern config pattern = .ok d ∧ Dfa.ofPattern config' pattern' = .ok d' ∧
      d.isComplete = true ∧ d.start = 0 ∧
      (∃ e e' : Derivation .expression, Unanchored pattern e.text ∧ Unanchored pattern' e'.text ∧
        e.language ∅ = e'.language ∅ ∧ ∀ c, e.Writes ∅ c ↔ e'.Writes ∅ c) ∧
      d.Same d' := by
  intro config config' pattern pattern'
  let cls : Class :=
    { items := [.range ⟨'a', false⟩ ⟨'b', false⟩]
      nonempty := by decide
      legal := by decide
      ascending := by decide
      unambiguous := trivial
      affirmative := by decide }
  let a : Derivation .term := .sequence (.one (.once (.plain 'a' (by decide))))
  let b : Derivation .term := .sequence (.one (.once (.plain 'b' (by decide))))
  let e : Derivation .expression := .alternative (.sequence (.one (.once (.bracket cls))))
  let e' : Derivation .expression := .either (.alternative a) b
  have he : Unanchored pattern e.text := Body.text_ofPattern.2 (by decide)
  have he' : Unanchored pattern' e'.text := Body.text_ofPattern.2 (by decide)
  have holds : ∀ c, cls.Holds c ↔ c = 'a' ∨ c = 'b' := by
    intro c
    have hinterval : Alphabet.intervalList 'a' 'b' = ['a', 'b'] := by decide
    calc cls.Holds c
      _ ↔ 'a' ≤ c ∧ c ≤ 'b' := by simp [Class.Holds, cls, ClassItem.Holds]
      _ ↔ c ∈ ['a', 'b'] := by rw [← Alphabet.mem_intervalList, hinterval]
      _ ↔ c = 'a' ∨ c = 'b' := by simp
  have hlanguage : e.language ∅ = e'.language ∅ := by
    ext w
    show (∃ c, cls.Holds c ∧ w = [c]) ↔ w = ['a'] ∨ w = ['b']
    simp only [holds, or_and_right, exists_or, exists_eq_left]
  obtain ⟨d, hd⟩ := Error.exists_ok_of_isSome
    (show (Dfa.ofPattern config pattern).toOption.isSome = true by cbv)
  obtain ⟨d', hd'⟩ := Error.exists_ok_of_isSome
    (show (Dfa.ofPattern config' pattern').toOption.isSome = true by cbv)
  obtain ⟨hcomplete, hstart, _, _, _, _, hsame, _⟩ := ofPattern_canonical hd
  exact ⟨d, d', hd, hd', hcomplete, hstart, ⟨e, e', he, he', hlanguage, holds⟩,
    hsame config' pattern' d' hd' e e' he he' hlanguage holds⟩

/-! ### With and without shapes -/

theorem Dfa.ofPattern_of_direct? {m : Dfa} (h : Dfa.direct? config pattern = some m) :
    Dfa.ofPattern { config with enableFastPaths := true } pattern = .ok m := by
  have h' : Dfa.direct? { config with enableFastPaths := true } pattern = some m := h
  rw [Dfa.ofPattern, if_pos rfl, h']

theorem Dfa.ofPattern_of_direct?_none (h : Dfa.direct? config pattern = none) :
    Dfa.ofPattern { config with enableFastPaths := true } pattern =
      Dfa.general config pattern := by
  have h' : Dfa.direct? { config with enableFastPaths := true } pattern = none := h
  rw [Dfa.ofPattern, if_pos rfl, h']
  rfl

/-- A pattern of a simple shape has no fault: only a ceiling can keep the general construction
from an automaton. -/
theorem Dfa.general_yields_of_direct? {m : Dfa} (h : Dfa.direct? config pattern = some m) :
    Yields IsCeiling (Dfa.general config pattern) fun d => m.Same d := by
  obtain ⟨e, he, hm⟩ := Dfa.direct?_minimalFor h
  have hparse : ∀ strategy, Yields IsCeiling (Regex.parse config strategy pattern)
      (· = e.regex config.dotAlphabet) := fun _ =>
    Regex.parse_yields_of_depth he.unanchored (fun _ hrefuses => hrefuses.isCeiling) he.readable
      (he.depth_eq ▸ Nat.zero_le _)
  refine (Dfa.general_yields (fun _ h => h) hparse).mono ?_
  intro d hd
  exact hm.same hd rfl fun _ => Iff.rfl

/-- **Simple shapes save work and change nothing.**  Where the general construction gives an
automaton, the direct one gives the same; where a pattern is refused with shapes, it is refused
for the same cause without them; and only a ceiling can keep the general construction from an
automaton that the direct one gives.  Shapes may thus turn a refusal into an automaton, but never
one automaton into another. -/
theorem fastPaths_agree (config : Config) (pattern : List Char) :
    let on := Dfa.ofPattern { config with enableFastPaths := true } pattern
    let off := Dfa.ofPattern { config with enableFastPaths := false } pattern
    (∀ d, off = .ok d → ∃ d', on = .ok d' ∧ d'.Same d) ∧
    (∀ error, on = .error error → off = .error error) ∧
    (∀ d error, on = .ok d → off = .error error →
      (∃ states max, error = .stateLimitExceeded states max) ∨
        ∃ capacity requested, error = .capacityExceeded capacity requested) := by
  intro on off
  have hoff : off = Dfa.general config pattern := rfl
  cases hdirect : Dfa.direct? config pattern with
  | none =>
      rw [show on = Dfa.general config pattern from Dfa.ofPattern_of_direct?_none hdirect, hoff]
      refine ⟨fun d hd => ⟨d, hd, .refl d⟩, fun error herror => herror, ?_⟩
      intro d error hd herror
      rw [hd] at herror
      cases herror
  | some m =>
      -- what the direct construction built, the general one builds as well if it is not refused for
      -- size
      have hyields := Dfa.general_yields_of_direct? hdirect
      rw [show on = .ok m from Dfa.ofPattern_of_direct? hdirect, hoff]
      refine ⟨?_, ?_, ?_⟩
      · intro d hd
        rw [hd] at hyields
        exact ⟨m, rfl, hyields⟩
      · rintro error ⟨⟩
      · intro d error _ herror
        rw [herror] at hyields
        cases error with
        | stateLimitExceeded states max => exact .inl ⟨states, max, rfl⟩
        | capacityExceeded capacity requested => exact .inr ⟨capacity, requested, rfl⟩
        | malformed fault offset => exact absurd hyields id
        | breached breach => exact absurd hyields id

/-- A word that is compiled directly, while its states are too many for the general construction. -/
theorem fastPaths_agree_of_word :
    let config : Config := { dotAlphabet := ∅, maxNfaStates := 3 }
    ∃ d error, Dfa.ofPattern { config with enableFastPaths := true } ['a', 'b'] = .ok d ∧
      Dfa.ofPattern { config with enableFastPaths := false } ['a', 'b'] = .error error ∧
      ((∃ states max, error = .stateLimitExceeded states max) ∨
        ∃ capacity requested, error = .capacityExceeded capacity requested) := by
  intro config
  obtain ⟨d, hd⟩ := Error.exists_ok_of_isSome
    (show (Dfa.ofPattern { config with enableFastPaths := true } ['a', 'b']).toOption.isSome =
      true by cbv)
  have hoff : Dfa.ofPattern { config with enableFastPaths := false } ['a', 'b'] =
      .error (.stateLimitExceeded 4 3) := by cbv
  exact ⟨d, _, hd, hoff, (fastPaths_agree config ['a', 'b']).2.2 d _ hd hoff⟩

end PatternAutomata
