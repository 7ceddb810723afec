import PatternAutomata.Direct
import PatternAutomata.Proofs.Pattern.Shape
import PatternAutomata.Proofs.Recognition
import PatternAutomata.Proofs.Trie

/-!
# Automata of simple shapes are minimal

Where a pattern of a simple shape has an automaton, the pattern is in the grammar, and the
automaton is the minimal one for what its derivation denotes (`Dfa.direct?_minimalFor`).

## Outlines

All that has to be known of a shape is an outline for the regular expression of its patterns
(`Shape.outline_recognizes`): a prefix tree for words, one state with a loop for a repeated
character, two states for a class.  What is done with the outline is the same for all shapes: it
is completed and minimized, and both keep what it is for.  An outline need not be minimal, and
that of two words mostly is not.

## What the derivation is for

The theorem gives a derivation along with the automaton, and says of it that nothing but ceilings
keeps it from being read (`Derivation.Reads`).  This is what makes the direct way comparable with
the general one: no pattern is compiled directly that the other way would find at fault.
-/

namespace PatternAutomata

open Error (IsCeiling)

/-- `e.Reads config pattern`: the derivation is one of the pattern without its anchors, no class
in it is refused, and there are no groups in it.  So only ceilings are left to refuse it. -/
structure Derivation.Reads (e : Derivation .expression) (config : Config)
    (pattern : List Char) : Prop where
  unanchored : Unanchored pattern e.text
  readable : ∀ cls ∈ e.classes, cls.Readable IsCeiling config
  depth_eq : e.depth = 0

theorem Derivation.Denotes.reads {e : Derivation .expression} {text symbols : List Char}
    {language : List Char → Prop} (h : e.Denotes text symbols language) {pattern : List Char}
    (htext : Unanchored pattern text) (config : Config) : e.Reads config pattern where
  unanchored := h.text_eq.symm ▸ htext
  readable cls hcls := by
    rw [h.classes_eq] at hcls
    cases hcls
  depth_eq := h.depth_eq

namespace Shape

variable {config : Config} {pattern : List Char} {d : Dfa}

/-! ### Outlines -/

/-- A prefix tree is for any derivation that denotes its words and is written with their symbols. -/
theorem recognizes_trie {words : List (List Char)} (hok : Trie.toDfa words = .ok d)
    {e : Derivation .expression} {text symbols : List Char}
    (he : e.Denotes text symbols fun w => w ∈ words) (hsymbols : symbols = words.flatten)
    (any : Alphabet) : d.Recognizes (e.regex any) := by
  obtain ⟨dfa, hdfa, hspelled⟩ := Trie.toDfa_ok words
  rw [hok] at hdfa
  cases hdfa
  refine ⟨hspelled.built, ?_, ?_, ?_, ?_⟩
  · rw [hspelled.numStates_eq]
    exact List.length_pos_of_mem ((hspelled.mem_labels []).2 (.inl rfl))
  · intro s hs
    rw [hspelled.numStates_eq] at hs
    exact ⟨(Trie.beginnings words)[s], (hspelled.run_iff _ s).2 (List.getElem?_eq_getElem hs)⟩
  · rw [hspelled.alphabet_eq, he.symbols_eq, hsymbols]
  · intro w
    rw [hspelled.accepts_iff, he.matches_iff]

/-- A state with a loop reads any number of a symbol, and no other. -/
theorem acceptsFrom_loop {c : Char} (hmove : ∀ b t, d.transition 0 b = some t ↔ b = c ∧ t = 0)
    (haccepting : d.isAccepting 0 = true) (w : List Char) :
    d.acceptsFrom 0 w = true ↔ ∀ b ∈ w, b = c := by
  induction w with
  | nil =>
      rw [Dfa.acceptsFrom_nil, haccepting]
      simp
  | cons b w ih =>
      rw [Dfa.acceptsFrom_cons]
      cases hb : d.transition 0 b with
      | none =>
          have hne : b ≠ c := by
            rintro rfl
            rw [(hmove b 0).2 ⟨rfl, rfl⟩] at hb
            cases hb
          simp [hne]
      | some t =>
          obtain ⟨rfl, rfl⟩ := (hmove b t).1 hb
          simp only [ih, List.forall_mem_cons, true_and]

/-- The automaton of a state with a loop, with all that is to be known of it. -/
theorem loop_ok (c : Char) :
    ∃ d, Dfa.ofRows (.ofList [c]) [(true, [(c, 0)])] = .ok d ∧
      d.Built ∧ d.numStates = 1 ∧ d.start = 0 ∧ d.alphabet = .ofList [c] ∧
      (∀ b t, d.transition 0 b = some t ↔ b = c ∧ t = 0) ∧ d.isAccepting 0 = true := by
  obtain ⟨d, hd, hlaid⟩ := Dfa.ofRows_ok (.ofList [c])
    [(true, [(c, 0)])] (by simp [Alphabet.mem_ofList]) (by simp +contextual)
  refine ⟨d, hd, hlaid.built, hlaid.numStates_eq, hlaid.start_eq, hlaid.alphabet_eq, ?_, ?_⟩
  · intro b t
    rw [hlaid.transition_iff]
    simp
  · rw [hlaid.isAccepting_iff]
    simp

/-- A state with a loop is for any number of a symbol, whichever derivation denotes that. -/
theorem recognizes_star {c : Char}
    (hok : Dfa.ofRows (.ofList [c]) [(true, [(c, 0)])] = .ok d) {e : Derivation .expression}
    {text : List Char} (he : e.Denotes text [c] fun w => ∀ b ∈ w, b = c) (any : Alphabet) :
    d.Recognizes (e.regex any) := by
  obtain ⟨dfa, hdfa, built, hone, hstart, halphabet, hmove, haccepting⟩ := loop_ok c
  rw [hok] at hdfa
  cases hdfa
  refine ⟨built, ?_, ?_, ?_, ?_⟩
  · rw [hone]
    exact Nat.one_pos
  · intro s hs
    rw [hone] at hs
    exact ⟨[], by rw [Dfa.run_nil, hstart, Nat.lt_one_iff.1 hs]⟩
  · rw [halphabet, he.symbols_eq]
  · intro w
    rw [Dfa.accepts, hstart, acceptsFrom_loop hmove haccepting, he.matches_iff]

/-- Two states with edges between them read one of the symbols, and nothing after it. -/
theorem acceptsFrom_fork {symbols : Alphabet}
    (hfirst : ∀ c t, d.transition 0 c = some t ↔ c ∈ symbols ∧ t = 1)
    (hsecond : ∀ c, d.transition 1 c = none) (hrejecting : d.isAccepting 0 = false)
    (haccepting : d.isAccepting 1 = true) (w : List Char) :
    d.acceptsFrom 0 w = true ↔ ∃ c, c ∈ symbols ∧ w = [c] := by
  cases w with
  | nil =>
      rw [Dfa.acceptsFrom_nil, hrejecting]
      simp
  | cons c w =>
      rw [Dfa.acceptsFrom_cons]
      cases hc : d.transition 0 c with
      | none =>
          have hnot : c ∉ symbols := by
            intro hmem
            rw [(hfirst c 1).2 ⟨hmem, rfl⟩] at hc
            cases hc
          simp only [Bool.false_eq_true, false_iff]
          rintro ⟨b, hb, heq⟩
          obtain ⟨rfl, rfl⟩ := List.cons.inj heq
          exact hnot hb
      | some t =>
          obtain ⟨hmem, rfl⟩ := (hfirst c t).1 hc
          cases w with
          | nil => simp [haccepting, hmem]
          | cons b w => simp [Dfa.acceptsFrom_cons, hsecond]

/-- The automaton of two states with edges from one to the other, with all that is to be known of
it. -/
theorem fork_ok (symbols : Alphabet) :
    ∃ d, Dfa.ofRows symbols [(false, symbols.toList.map fun c => (c, 1)), (true, [])] = .ok d ∧
      d.Built ∧ d.numStates = 2 ∧ d.start = 0 ∧ d.alphabet = symbols ∧
      (∀ c t, d.transition 0 c = some t ↔ c ∈ symbols ∧ t = 1) ∧
      (∀ c, d.transition 1 c = none) ∧ d.isAccepting 0 = false ∧ d.isAccepting 1 = true := by
  obtain ⟨d, hd, hlaid⟩ := Dfa.ofRows_ok symbols
    [(false, symbols.toList.map fun c => (c, 1)), (true, [])]
    (by simp [Std.ExtTreeSet.mem_toList]) (by simp +contextual [eq_comm])
  refine ⟨d, hd, hlaid.built, hlaid.numStates_eq, hlaid.start_eq, hlaid.alphabet_eq, ?_, ?_, ?_, ?_⟩
  · intro c t
    rw [hlaid.transition_iff]
    simp [Std.ExtTreeSet.mem_toList, eq_comm]
  · intro c
    apply Option.eq_none_iff_forall_ne_some.2
    intro t ht
    rw [hlaid.transition_iff] at ht
    simp at ht
  · rw [Bool.eq_false_iff, ne_eq, hlaid.isAccepting_iff]
    simp
  · rw [hlaid.isAccepting_iff]
    simp

/-- Two states with edges between them are for a choice of symbols.  Without symbols the second
state would not be reached. -/
theorem recognizes_bracket {symbols : Alphabet} (hne : symbols ≠ ∅)
    (hok : Dfa.ofRows symbols [(false, symbols.toList.map fun c => (c, 1)), (true, [])] =
      .ok d) :
    d.Recognizes (.oneOf symbols) := by
  obtain ⟨dfa, hdfa, built, htwo, hstart, halphabet, hfirst, hsecond, hrejecting, haccepting⟩ :=
    fork_ok symbols
  rw [hok] at hdfa
  cases hdfa
  refine ⟨built, ?_, ?_, halphabet, ?_⟩
  · rw [htwo]
    exact Nat.two_pos
  · intro s hs
    have hcases : s = 0 ∨ s = 1 := by omega
    rcases hcases with rfl | rfl
    · exact ⟨[], by rw [Dfa.run_nil, hstart]⟩
    · obtain ⟨c, hc⟩ := Alphabet.exists_mem_of_ne_empty hne
      refine ⟨[c], ?_⟩
      rw [Dfa.run, hstart, Dfa.runFrom_cons, (hfirst c 1).2 ⟨hc, rfl⟩]
      rfl
  · intro w
    rw [Regex.matches_oneOf, Dfa.accepts, hstart,
      acceptsFrom_fork hfirst hsecond hrejecting haccepting]

/-- A class without escapes is read as one token, whose members are its characters. -/
theorem scan_class {c : Char} {inner : List Char} (hc : isMember c = true)
    (hinner : inner.all isMember = true) :
    (∀ m ∈ (c :: inner).map fun b => Member.mk b false, m.Legal) ∧
    ((c :: inner).map fun b => Member.mk b false).flatMap Member.text = c :: inner ∧
    Token.scan 0 ('[' :: c :: inner ++ [']']) = [(0, .bracket
      ⟨Member.pieces 1 ((c :: inner).map fun b => Member.mk b false), .closed⟩)] := by
  have hlegal : ∀ m ∈ (c :: inner).map fun b => Member.mk b false, m.Legal := by
    intro m hm
    obtain ⟨b, hb, rfl⟩ := List.mem_map.1 hm
    have hmember : isMember b = true := by
      rcases List.mem_cons.1 hb with rfl | hb
      · exact hc
      · exact List.all_eq_true.1 hinner b hb
    simp only [isMember, Bool.and_eq_true, bne_iff_ne, ne_eq] at hmember
    exact fun _ => ⟨hmember.1.2, hmember.2⟩
  have htext : ((c :: inner).map fun b => Member.mk b false).flatMap Member.text = c :: inner := by
    rw [List.flatMap_map]
    exact List.flatMap_singleton' _
  have hwritten : Token.Written 0 _ _ := .bracket hlegal
  rw [htext] at hwritten
  have hscan := hwritten.scan_append []
  rw [List.append_nil, Token.scan_nil] at hscan
  exact ⟨hlegal, htext, hscan⟩

/-- A class without escapes is a class of the grammar, if its symbols can be read. -/
theorem exists_bracket {c : Char} {inner : List Char} (hc : isMember c = true)
    (hinner : inner.all isMember = true) {symbols : Alphabet}
    (hok : Bracket.membersOf config.maxClassSize ('[' :: c :: inner ++ [']']) = .ok symbols) :
    symbols ≠ ∅ ∧ ∃ e : Derivation .expression,
      e.Reads config ('[' :: c :: inner ++ [']']) ∧
        ∀ any, e.regex any = .oneOf symbols := by
  obtain ⟨hlegal, htext, hscan⟩ := scan_class hc hinner
  have hmembers := (Bracket.membersOf_of_scan hscan).symm.trans hok
  obtain ⟨_, _, _, hnonempty⟩ := Bracket.members_eq_ok_iff.1 hmembers
  obtain ⟨cls, hcls, rfl⟩ := Bracket.exists_class hlegal hmembers
  have hclsText : cls.text = '[' :: c :: inner ++ [']'] := by
    rw [Class.text, hcls, htext]
  refine ⟨Std.ExtTreeSet.isEmpty_eq_false_iff.1 hnonempty,
    .alternative (.sequence (.one (.once (.bracket cls)))), ⟨?_, ?_, rfl⟩, fun _ => rfl⟩
  · show Unanchored _ cls.text
    rw [hclsText]
    refine unanchored_self (by simp) ?_
    rw [List.getLast?_concat]
    decide
  · intro cls' hcls'
    obtain rfl := List.mem_singleton.1 hcls'
    intro offset start
    rw [hcls, Bracket.members_congr hmembers]
    exact .ok rfl

/-- **The outline of a shape is for the patterns of the shape**, which are in the grammar. -/
theorem outline_recognizes {shape : Shape} (hfits : Fits pattern shape)
    (hok : shape.outline config = .ok d) :
    ∃ e : Derivation .expression, e.Reads config pattern ∧
      d.Recognizes (e.regex config.dotAlphabet) := by
  -- the three shapes of one word differ in the anchors alone, which the grammar does not see
  have word : ∀ {w : List Char}, isWord w = true → Trie.toDfa [w] = .ok d →
      Unanchored pattern w → ∃ e : Derivation .expression, e.Reads config pattern ∧
        d.Recognizes (e.regex config.dotAlphabet) := by
    intro w hw htrie hpattern
    obtain ⟨t, ht, -⟩ := exists_literal hw
    have hlanguage : (Derivation.alternative t).Denotes w w fun v => v ∈ [w] := by
      simpa using ht.alternative
    exact ⟨.alternative t, hlanguage.reads hpattern config,
      recognizes_trie htrie hlanguage (by simp) _⟩
  cases hfits with
  | literal hw => exact word hw hok (unanchored_literal hw)
  | anchoredStart hw => exact word hw hok (unanchored_anchoredStart hw)
  | anchoredEnd hw => exact word hw hok (unanchored_anchoredEnd hw)
  | @alternation v w hv hw =>
      obtain ⟨e, he, -⟩ := exists_alternation hv hw
      have hlanguage : e.Denotes (v ++ '|' :: w) (v ++ w) fun u => u ∈ [v, w] := by
        simpa using he
      exact ⟨e, hlanguage.reads (unanchored_alternation hv hw) config,
        recognizes_trie hok hlanguage (by simp) _⟩
  | @star c hc =>
      obtain ⟨e, he⟩ := exists_star hc
      have hcaret : c ≠ '^' := by
        rintro rfl
        exact absurd hc (by decide)
      have hpattern : Unanchored [c, '*'] [c, '*'] :=
        unanchored_self (by simpa using hcaret) (by simp)
      exact ⟨e, he.reads hpattern config, recognizes_star hok he _⟩
  | bracket hc _ hinner =>
      obtain ⟨symbols, hmembers, hrows⟩ := Error.bind_eq_ok_iff.1 hok
      obtain ⟨hne, e, he, hregex⟩ := exists_bracket hc hinner hmembers
      refine ⟨e, he, ?_⟩
      rw [hregex]
      exact recognizes_bracket hne hrows

/-! ### Minimal automata -/

/-- **The automaton of a shape is minimal** for the patterns of the shape. -/
theorem toDfa_minimalFor {shape : Shape} {m : Dfa} (hfits : Fits pattern shape)
    (hok : shape.toDfa config = .ok m) :
    ∃ e : Derivation .expression, e.Reads config pattern ∧
      m.MinimalFor (e.regex config.dotAlphabet) := by
  obtain ⟨outline, houtline, hok⟩ := Error.bind_eq_ok_iff.1 hok
  obtain ⟨e, he, hrecognizes⟩ := outline_recognizes hfits houtline
  obtain ⟨whole, dead, hcomplete, hwhole, total⟩ := hrecognizes.complete
  rw [hcomplete, Error.ok_bind] at hok
  obtain ⟨m', hminimize, hminimal⟩ := hwhole.minimize total
  simp only at hok
  split at hok
  · cases hok
  · rw [hminimize] at hok
    cases hok
    exact ⟨e, he, hminimal⟩

end Shape

/-- **The automaton of a pattern of a simple shape is minimal** for the pattern. -/
theorem Dfa.direct?_minimalFor {config : Config} {pattern : List Char} {m : Dfa}
    (h : Dfa.direct? config pattern = some m) :
    ∃ e : Derivation .expression, e.Reads config pattern ∧
      m.MinimalFor (e.regex config.dotAlphabet) := by
  rw [Dfa.direct?] at h
  split at h
  · cases h
  · rename_i shape hshape
    refine Shape.toDfa_minimalFor (Shape.ofPattern?_eq_some_iff.1 hshape) ?_
    cases hdfa : shape.toDfa config with
    | ok dfa =>
        rw [hdfa] at h
        cases h
        rfl
    | error e =>
        rw [hdfa] at h
        cases h

end PatternAutomata
