import PatternAutomata.Compile
import PatternAutomata.Proofs.Direct

/-!
# Room for simple shapes

Where the general construction stays within the bounds, the automaton of a simple shape is made
within them as well (`Shape.exists_toDfa`).  So nothing is lost when only the general construction
is tried after the direct one was refused: it will not succeed with an automaton that the direct
one should have given.

## Why this is not plain

The direct construction holds the ceiling against the completed outline, before it is minimized,
and an outline may be larger than the minimal automaton.  The general construction holds it
against the automaton of the powerset, which may be larger too.  So two automata that are not
minimal have to be compared.  The outline of a class or a loop is minimal as it is.  A prefix tree
is not: it has a state for every beginning of a word, while words that end alike could share their
ends.  But so has the automaton of the powerset construction, since every beginning leaves a mark
on the automaton that it is made from, a state that is active after this beginning and after no
other.

## Counting by words

`Dfa.Finer` compares two automata without a map between their states: words that lead apart in one
lead apart in the other.  If the finer one is complete, it has at least as many states as the
other one has after completion (`Dfa.Finer.numStates_le`), and this is the inequality that the
ceiling needs.  Marks give it for prefix trees (`Nfa.Tracks.finer_of_marks`), and being minimal
gives it for the other shapes (`Dfa.Reduced.finer`).
-/

namespace PatternAutomata

/-! ### Counting states by words -/

namespace Dfa

variable {d u whole : Dfa}

/-- `u.Finer d`: words over the alphabet that lead apart in `d` lead apart in `u`.  It is stated
with equality, for runs that may be missing on either side. -/
def Finer (u d : Dfa) : Prop :=
  ∀ v w, d.OverAlphabet v → d.OverAlphabet w → u.run v = u.run w → d.run v = d.run w

/-- A complete automaton has at least as many states as one that it is finer than. -/
theorem Finer.numStates_le_of_accessible (finer : u.Finer d) (accessible : d.Accessible)
    (wf : d.WellFormed) (wf' : u.WellFormed) (pos : 0 < u.numStates) (total : u.Total)
    (alphabet : d.alphabet = u.alphabet) : d.numStates ≤ u.numStates := by
  have access : ∀ s : Fin d.numStates, ∃ w, d.run w = some s.1 := fun s => accessible s.1 s.2
  choose word hword using access
  have legal : ∀ s, d.OverAlphabet (word s) := fun s => wf.overAlphabet_of_runFrom (hword s)
  have target : ∀ s, ∃ t : Fin u.numStates, u.run (word s) = some t.1 := by
    intro s
    have legal' : u.OverAlphabet (word s) := by
      rw [OverAlphabet, ← alphabet]
      exact legal s
    obtain ⟨t, ht⟩ := total.exists_run wf' pos legal'
    exact ⟨⟨t, wf'.run_lt pos ht⟩, ht⟩
  choose number hnumber using target
  have injective : Function.Injective number := by
    intro s s' heq
    have hrun := finer _ _ (legal s) (legal s') (by rw [hnumber, hnumber, heq])
    rw [hword, hword, Option.some.injEq] at hrun
    exact Fin.ext hrun
  simpa using Fintype.card_le_of_injective number injective

/-- Where the missing edges lead to a new state, the words that were stuck lead there. -/
theorem Sunk.finer (sunk : Sunk d whole) (built : d.Built) (finer : u.Finer d) :
    u.Finer whole := by
  have wf := (sunk.built built).wellFormed
  have pos : 0 < whole.numStates := by
    rw [sunk.numStates_eq]
    exact Nat.succ_pos _
  have run_eq : ∀ x, whole.OverAlphabet x → whole.run x = some ((d.run x).getD d.numStates) := by
    intro x hx
    obtain ⟨t, ht⟩ := sunk.total.exists_run wf pos hx
    rcases sunk.run_cases ht with hrun | ⟨rfl, hrun⟩
    · rw [ht, hrun, Option.getD_some]
    · rw [ht, hrun, Option.getD_none]
  intro v w hv hw hrun
  have same : d.run v = d.run w := by
    refine finer v w ?_ ?_ hrun
    · rwa [OverAlphabet, ← sunk.alphabet_eq]
    · rwa [OverAlphabet, ← sunk.alphabet_eq]
  rw [run_eq v hv, run_eq w hw, same]

/-- **Completed, an automaton has no more states than a finer one.**  Completion may add a state
to the one; the finer one is complete, so it has a state for this purpose already. -/
theorem Finer.numStates_le (finer : u.Finer d) (built : d.Built) (accessible : d.Accessible)
    {dead : Option Nat} (hwhole : d.complete = .ok (whole, dead)) (wf : u.WellFormed)
    (pos : 0 < u.numStates) (total : u.Total) (alphabet : d.alphabet = u.alphabet) :
    whole.numStates ≤ u.numStates := by
  rcases d.complete_ok with ⟨-, hok⟩ | ⟨partly, sunk, hok, hsunk⟩
  · rw [hwhole] at hok
    cases hok
    exact finer.numStates_le_of_accessible accessible built.wellFormed wf pos total alphabet
  · rw [hwhole] at hok
    cases hok
    exact (hsunk.finer built finer).numStates_le_of_accessible (hsunk.accessible partly accessible)
      (hsunk.built built).wellFormed wf pos total (hsunk.alphabet_eq.trans alphabet)

/-- **Words after which different words are accepted lead apart** in every automaton for the
language.  The hypothesis that every reached state is live makes sure that a word without a run is
told apart from one with a run. -/
theorem Reduced.finer (reduced : d.Reduced) (live : d.LiveWhereReached) (wf : d.WellFormed)
    (pos : 0 < d.numStates) (wf' : u.WellFormed) (pos' : 0 < u.numStates) (total : u.Total)
    (alphabet : d.alphabet = u.alphabet) (lang : ∀ w, u.accepts w = d.accepts w) :
    u.Finer d := by
  intro v w hv hw hrun
  have alike : ∀ x, d.accepts (v ++ x) = d.accepts (w ++ x) := by
    intro x
    have hv' : u.OverAlphabet v := by rwa [OverAlphabet, ← alphabet]
    obtain ⟨t, ht⟩ := total.exists_run wf' pos' hv'
    rw [← lang, ← lang, accepts_append ht, accepts_append (hrun ▸ ht)]
  have stuck : ∀ {x y : List Char} {s : Nat}, (∀ z, d.accepts (x ++ z) = d.accepts (y ++ z)) →
      d.run x = some s → d.run y ≠ none := by
    intro x y s h hs hnone
    obtain ⟨z, hz⟩ := live x s hs
    rw [← accepts_append hs, h, accepts_append_of_run_eq_none hnone] at hz
    cases hz
  cases hs : d.run v with
  | none =>
      cases ht : d.run w with
      | none => rfl
      | some t => exact absurd hs (stuck (fun x => (alike x).symm) ht)
  | some s =>
      cases ht : d.run w with
      | none => exact absurd ht (stuck alike hs)
      | some t =>
          congr 1
          by_contra hne
          obtain ⟨x, hx⟩ := reduced s t (wf.run_lt pos hs) (wf.run_lt pos ht) hne
          refine hx ?_
          rw [← accepts_append hs, ← accepts_append ht, alike]

end Dfa

/-- **Beginnings that leave a mark lead apart** in the automaton of the powerset construction.
Two words with the same active states share the mark, and so they are the same word. -/
theorem Nfa.Tracks.finer_of_marks {nfa : Nfa} {u d : Dfa}
    {mapping : Std.ExtTreeMap Nat (List Nat)} (tracks : nfa.Tracks u mapping)
    (alphabet : d.alphabet = u.alphabet) (marks : ∀ v, d.run v ≠ none → nfa.Marks v) :
    u.Finer d := by
  intro v w hv hw hrun
  rw [Dfa.OverAlphabet, alphabet] at hv hw
  have hactive : nfa.active v = nfa.active w := by
    obtain ⟨s, hs, hlist, -⟩ := tracks.exists_run v hv
    obtain ⟨t, ht, hlist', -⟩ := tracks.exists_run w hw
    rw [hs, ht, Option.some.injEq] at hrun
    rw [hrun, hlist', Option.some.injEq] at hlist
    exact nfa.powerset_key_injective hlist.symm
  by_cases hnone : d.run v = none
  · by_cases hnone' : d.run w = none
    · rw [hnone, hnone']
    · rw [(marks w hnone').eq_of_active_eq hactive.symm]
  · rw [(marks v hnone).eq_of_active_eq hactive]

/-! ### The general construction -/

namespace Dfa

variable {config : Config} {pattern : List Char} {u : Dfa}

/-- The automaton before it is minimized is that of the powerset construction, for a tree that the
pattern is read as. -/
theorem exists_determinize_of_unminimized (h : unminimized config pattern = .ok u) :
    ∃ strategy r, Regex.parse config strategy pattern = .ok r ∧
      r.toNfa.determinize config.maxDfaStates = .ok u := by
  have hwith : ∃ strategy, unminimizedWith config strategy pattern = .ok u := by
    rw [unminimized] at h
    split at h
    · exact ⟨_, h⟩
    · exact ⟨_, h⟩
  obtain ⟨strategy, hwith⟩ := hwith
  obtain ⟨nfa, hnfa, hu⟩ := Error.bind_eq_ok_iff.1 hwith
  obtain ⟨r, hr, hnfa⟩ := Error.bind_eq_ok_iff.1 hnfa
  cases hnfa
  rw [Strategy.determinize_eq] at hu
  exact ⟨strategy, r, hr, hu⟩

/-- The tree is that of whatever derivation of the pattern. -/
theorem determinize_of_unminimized (h : unminimized config pattern = .ok u)
    {e : Derivation .expression} (he : Unanchored pattern e.text) :
    (e.regex config.dotAlphabet).toNfa.determinize config.maxDfaStates = .ok u := by
  obtain ⟨strategy, r, hr, hu⟩ := exists_determinize_of_unminimized h
  have hread := Regex.parse_yields_any he config strategy
  rw [hr] at hread
  exact (show r = _ from hread) ▸ hu

end Dfa

/-! ### Simple shapes -/

namespace Shape

variable {config : Config} {pattern : List Char} {shape : Shape} {u d : Dfa}

/-- What the outline of a shape and the general construction have in common: a tree that both
recognize. -/
theorem exists_common (hfits : Fits pattern shape) (hd : shape.outline config = .ok d)
    (hu : Dfa.unminimized config pattern = .ok u) :
    ∃ r : Regex, d.Recognizes r ∧ u.Recognizes r ∧ u.Total := by
  obtain ⟨e, he, hrecognizes⟩ := outline_recognizes hfits hd
  have hdet := Nfa.determinizes_of_determinize (e.regex config.dotAlphabet).wellFormed_toNfa
    (Dfa.determinize_of_unminimized hu he.unanchored)
  exact ⟨_, hrecognizes, hdet.recognizes, hdet.total⟩

/-- Where the beginnings of words leave marks, the prefix tree has no state too many. -/
theorem finer_of_trie {words : List (List Char)} (hne : words ≠ [])
    (hd : Trie.toDfa words = .ok d) {r : Regex} {limit : Nat}
    (hu : r.toNfa.determinize limit = .ok u) (alphabet : d.alphabet = u.alphabet)
    (marks : ∀ w ∈ words, ∀ v, v <+: w → r.toNfa.Marks v) : u.Finer d := by
  obtain ⟨dfa, hdfa, hspelled⟩ := Trie.toDfa_ok words
  rw [hd] at hdfa
  cases hdfa
  obtain ⟨mapping, tracks⟩ := Nfa.tracks_of_determinize r.wellFormed_toNfa hu
  refine tracks.finer_of_marks alphabet fun v hv => ?_
  obtain ⟨j, hj⟩ := Option.ne_none_iff_exists'.1 hv
  rcases (hspelled.mem_labels v).1 (List.mem_of_getElem? ((hspelled.run_iff v j).1 hj)) with
    rfl | ⟨w, hw, hprefix⟩
  · obtain ⟨w, hw⟩ := List.exists_mem_of_ne_nil words hne
    exact marks w hw [] (List.nil_prefix)
  · exact marks w hw v hprefix

/-- A word has an outline, and the general construction is finer. -/
theorem exists_outline_word {w : List Char} (hw : isWord w = true) (hfits : Fits pattern shape)
    (houtline : shape.outline config = Trie.toDfa [w]) (hpattern : Unanchored pattern w)
    (hu : Dfa.unminimized config pattern = .ok u) :
    ∃ d, shape.outline config = .ok d ∧ u.Finer d := by
  obtain ⟨d, hd, -⟩ := Trie.toDfa_ok [w]
  obtain ⟨t, ht, hspells⟩ := exists_literal hw
  obtain ⟨r, hdr, hur, -⟩ := exists_common hfits (houtline.trans hd) hu
  refine ⟨d, houtline.trans hd, ?_⟩
  have hunanchored : Unanchored pattern (Derivation.alternative t).text :=
    ht.text_eq.symm ▸ hpattern
  refine finer_of_trie (List.cons_ne_nil w []) hd (Dfa.determinize_of_unminimized hu hunanchored)
    (hdr.alphabet_eq.trans hur.alphabet_eq.symm) ?_
  intro w' hw' v hv
  obtain rfl := List.mem_singleton.1 hw'
  exact (hspells _).marks hv

/-- Two words have an outline, and the general construction is finer. -/
theorem exists_outline_alternation {v w : List Char} (hv : isWord v = true)
    (hw : isWord w = true) (hu : Dfa.unminimized config (v ++ '|' :: w) = .ok u) :
    ∃ d, (alternation v w).outline config = .ok d ∧ u.Finer d := by
  obtain ⟨d, hd, -⟩ := Trie.toDfa_ok [v, w]
  obtain ⟨e, he, hspells⟩ := exists_alternation hv hw
  obtain ⟨r, hdr, hur, -⟩ := exists_common (.alternation hv hw) hd hu
  refine ⟨d, hd, ?_⟩
  have hdeterminize := Dfa.determinize_of_unminimized hu
    (e := e) (he.text_eq.symm ▸ unanchored_alternation hv hw)
  obtain ⟨left, right, hregex, hleft, hright⟩ := hspells config.dotAlphabet
  rw [hregex] at hdeterminize
  refine finer_of_trie (List.cons_ne_nil v [w]) hd hdeterminize
    (hdr.alphabet_eq.trans hur.alphabet_eq.symm) ?_
  intro x hx y hy
  rcases List.mem_pair.1 hx with rfl | rfl
  · exact (hleft.marks hy).union_left left.wellFormed_toNfa right.wellFormed_toNfa
  · exact (hright.marks hy).union_right left.wellFormed_toNfa right.wellFormed_toNfa

/-- The general construction is finer than an outline that is minimal. -/
theorem finer_of_reduced (hfits : Fits pattern shape) (hd : shape.outline config = .ok d)
    (hu : Dfa.unminimized config pattern = .ok u) (reduced : d.Reduced)
    (live : d.LiveWhereReached) : u.Finer d := by
  obtain ⟨r, hdr, hur, total⟩ := exists_common hfits hd hu
  refine reduced.finer live hdr.built.wellFormed hdr.pos hur.built.wellFormed hur.pos total
    (hdr.alphabet_eq.trans hur.alphabet_eq.symm) fun w => ?_
  rw [Bool.eq_iff_iff, hur.accepts_iff, hdr.accepts_iff]

/-- A loop has an outline, and the general construction is finer. -/
theorem exists_outline_star {c : Char} (hc : isPlain c = true)
    (hu : Dfa.unminimized config [c, '*'] = .ok u) :
    ∃ d, (star c).outline config = .ok d ∧ u.Finer d := by
  obtain ⟨d, hd, built, hone, -, -, -, haccepting⟩ := loop_ok c
  refine ⟨d, hd, finer_of_reduced (.star hc) hd hu ?_ ?_⟩
  · intro s t hs ht hne
    omega
  · intro w s hs
    have hlt := built.wellFormed.run_lt (by omega) hs
    obtain rfl : s = 0 := by omega
    exact ⟨[], haccepting⟩

/-- A class that is read has members. -/
theorem membersOf_of_parse {c : Char} {inner : List Char} (hc : isMember c = true)
    (hinner : inner.all isMember = true) {strategy : Strategy} {r : Regex}
    (h : Regex.parse config strategy ('[' :: c :: inner ++ [']']) = .ok r) :
    ∃ symbols,
      Bracket.membersOf config.maxClassSize ('[' :: c :: inner ++ [']']) = .ok symbols := by
  obtain ⟨-, -, hscan⟩ := scan_class hc hinner
  rw [Regex.parse_of_scan hscan] at h
  rw [Bracket.membersOf_of_scan hscan]
  cases hmembers : Bracket.members config.maxClassSize 0 _ with
  | ok symbols => exact ⟨symbols, rfl⟩
  | error e =>
      rw [hmembers] at h
      cases h

/-- A class has an outline, and the general construction is finer. -/
theorem exists_outline_bracket {c : Char} {inner : List Char} (hc : isMember c = true)
    (hcaret : c ≠ '^') (hinner : inner.all isMember = true)
    (hu : Dfa.unminimized config ('[' :: c :: inner ++ [']']) = .ok u) :
    ∃ d, (bracket ('[' :: c :: inner ++ [']'])).outline config = .ok d ∧ u.Finer d := by
  obtain ⟨strategy, r, hparse, -⟩ := Dfa.exists_determinize_of_unminimized hu
  obtain ⟨symbols, hmembers⟩ := membersOf_of_parse hc hinner hparse
  obtain ⟨hne, -⟩ := exists_bracket hc hinner hmembers
  obtain ⟨d, hd, built, htwo, -, -, hfirst, -, hrejecting, haccepting⟩ := fork_ok symbols
  have houtline : (bracket ('[' :: c :: inner ++ [']'])).outline config = .ok d :=
    Error.bind_eq_ok_iff.2 ⟨symbols, hmembers, hd⟩
  refine ⟨d, houtline, finer_of_reduced (.bracket hc hcaret hinner) houtline hu ?_ ?_⟩
  · -- only the second of the two states accepts
    intro s t hs ht hst
    refine ⟨[], ?_⟩
    rw [Dfa.Separates, Dfa.acceptsFrom_nil, Dfa.acceptsFrom_nil]
    have hcases : s = 0 ∧ t = 1 ∨ s = 1 ∧ t = 0 := by omega
    rcases hcases with ⟨rfl, rfl⟩ | ⟨rfl, rfl⟩
    · simp [hrejecting, haccepting]
    · simp [hrejecting, haccepting]
  · intro w s hs
    have hlt := built.wellFormed.run_lt (by omega) hs
    have hcases : s = 0 ∨ s = 1 := by omega
    rcases hcases with rfl | rfl
    · obtain ⟨b, hb⟩ := Alphabet.exists_mem_of_ne_empty hne
      refine ⟨[b], ?_⟩
      rw [Dfa.acceptsFrom_cons, (hfirst b 1).2 ⟨hb, rfl⟩]
      exact haccepting
    · exact ⟨[], haccepting⟩

/-- **The outline of a shape exists if the general construction succeeds**, which is finer.
Success is needed for classes, whose outline can be refused for their size; the other shapes have
an outline in any case. -/
theorem exists_outline (hfits : Fits pattern shape)
    (hu : Dfa.unminimized config pattern = .ok u) :
    ∃ d, shape.outline config = .ok d ∧ u.Finer d := by
  cases hfits with
  | literal hw => exact exists_outline_word hw (.literal hw) rfl (unanchored_literal hw) hu
  | anchoredStart hw =>
      exact exists_outline_word hw (.anchoredStart hw) rfl (unanchored_anchoredStart hw) hu
  | anchoredEnd hw =>
      exact exists_outline_word hw (.anchoredEnd hw) rfl (unanchored_anchoredEnd hw) hu
  | alternation hv hw => exact exists_outline_alternation hv hw hu
  | star hc => exact exists_outline_star hc hu
  | bracket hc hcaret hinner => exact exists_outline_bracket hc hcaret hinner hu

/-- **The automaton of a shape is made if the general construction succeeds.**  Only the automaton
before minimization is asked to exist, as minimization is never refused. -/
theorem exists_toDfa (hfits : Fits pattern shape)
    (hu : Dfa.unminimized config pattern = .ok u) : ∃ m, shape.toDfa config = .ok m := by
  obtain ⟨d, hd, finer⟩ := exists_outline hfits hu
  obtain ⟨r, hdr, hur, total⟩ := exists_common hfits hd hu
  obtain ⟨whole, dead, hcomplete, hwhole, htotal⟩ := hdr.complete
  obtain ⟨m, hminimize, -⟩ := hwhole.minimize htotal
  have hle : whole.numStates ≤ config.maxDfaStates := by
    obtain ⟨strategy, read, -, hdeterminize⟩ := Dfa.exists_determinize_of_unminimized hu
    exact (finer.numStates_le hdr.built hdr.accessible hcomplete hur.built.wellFormed hur.pos total
      (hdr.alphabet_eq.trans hur.alphabet_eq.symm)).trans
      (Nfa.numStates_le_of_determinize hdeterminize)
  refine ⟨m, ?_⟩
  rw [toDfa, hd, Error.ok_bind, hcomplete, Error.ok_bind]
  simp only [Nat.not_lt.2 hle, if_false]
  exact hminimize

end Shape

end PatternAutomata
