import Mathlib.Data.List.TakeWhile
import PatternAutomata.Pattern.Shape
import PatternAutomata.Proofs.Nfa.Marks
import PatternAutomata.Proofs.Pattern.Reading

/-!
# What simple shapes say

A pattern has a shape iff it is written in one of six ways (`Shape.ofPattern?_eq_some_iff`), and
each of them is a way of writing a pattern of the grammar.

## Shapes as ways of writing

A shape is recognized by looking for the first sign in a pattern and at what follows it.
`Shape.Fits` says the same without an order of tests: a word, a word with an anchor before or
behind it, two words with a bar between them, a character with a star, a class of plain members.
The six exclude one another, since words have no signs.

## What they denote

For each way of writing there is a derivation, which shows what a pattern of the shape denotes
(`Derivation.Denotes`).  Except for a bracket
expression, such a derivation has no groups and no classes; therefore neither depth nor class sizes
can refuse it.  Words are moreover spelled
out symbol after symbol, which is what the number of states of their automata depends on.  The
anchors are no part of the derivation, and are taken off first.
-/

namespace PatternAutomata

namespace Shape

/-! ### The patterns of a shape -/

theorem isPlain_iff {c : Char} : isPlain c = true ↔ c ∉ signs := by
  simp [isPlain]

theorem isWord_iff {w : List Char} : isWord w = true ↔ w ≠ [] ∧ ∀ c ∈ w, isPlain c = true := by
  simp [isWord]

/-- `Fits pattern shape`: the pattern is written in the way of the shape. -/
inductive Fits : List Char → Shape → Prop where
  | literal {w : List Char} : isWord w = true → Fits w (.literal w)
  | anchoredStart {w : List Char} : isWord w = true → Fits ('^' :: w) (.anchoredStart w)
  | anchoredEnd {w : List Char} : isWord w = true → Fits (w ++ ['$']) (.anchoredEnd w)
  | alternation {v w : List Char} : isWord v = true → isWord w = true →
      Fits (v ++ '|' :: w) (.alternation v w)
  | star {c : Char} : isPlain c = true → Fits [c, '*'] (.star c)
  | bracket {c : Char} {inner : List Char} : isMember c = true → c ≠ '^' →
      inner.all isMember = true →
      Fits ('[' :: c :: inner ++ [']']) (.bracket ('[' :: c :: inner ++ [']']))

theorem isClassTail_iff {rest : List Char} :
    isClassTail rest = true ↔ ∃ c inner, rest = c :: inner ++ [']'] ∧ isMember c = true ∧
      c ≠ '^' ∧ inner.all isMember = true := by
  cases rest with
  | nil => simp [isClassTail]
  | cons c rest =>
      rw [isClassTail]
      cases hreverse : rest.reverse with
      | nil =>
          have hrest : rest = [] := List.reverse_eq_nil_iff.1 hreverse
          subst hrest
          simp
      | cons last inner =>
          have hrest : rest = inner.reverse ++ [last] := by
            rw [← List.reverse_reverse rest, hreverse, List.reverse_cons]
          subst hrest
          by_cases hlast : last = ']'
          · subst hlast
            simp only [Bool.and_eq_true, bne_iff_ne, ne_eq]
            constructor
            · rintro ⟨⟨hc, hcaret⟩, hinner⟩
              refine ⟨c, inner.reverse, rfl, hc, hcaret, ?_⟩
              rw [List.all_reverse]
              exact hinner
            · rintro ⟨c', inner', heq, hc, hcaret, hinner⟩
              obtain ⟨rfl, htail⟩ := List.cons.inj heq
              rw [← List.append_cancel_right htail, List.all_reverse] at hinner
              exact ⟨⟨hc, hcaret⟩, hinner⟩
          · simp [hlast]

theorem takeWhile_word {w : List Char} (hw : isWord w = true) {c : Char}
    (hc : isPlain c = false) (rest : List Char) :
    (w ++ c :: rest).takeWhile isPlain = w ∧ (w ++ c :: rest).dropWhile isPlain = c :: rest := by
  have hplain := (isWord_iff.1 hw).2
  rw [List.takeWhile_append_of_pos hplain, List.dropWhile_append_of_pos hplain]
  simp [hc]

/-- A pattern that has a shape is written in the way of the shape.  The proof follows the tests
that it has passed. -/
theorem fits_of_ofPattern? {pattern : List Char} {shape : Shape}
    (h : ofPattern? pattern = some shape) : Fits pattern shape := by
  -- what stands before the first sign of the pattern, and what from there on
  have hsplit := List.takeWhile_append_dropWhile (p := isPlain) (l := pattern)
  have hplain : ∀ c ∈ pattern.takeWhile isPlain, isPlain c = true :=
    fun c hc => List.mem_takeWhile_imp hc
  rw [ofPattern?] at h
  generalize pattern.takeWhile isPlain = w at h hsplit hplain
  generalize pattern.dropWhile isPlain = rest at h hsplit
  subst hsplit
  split at h
  · rename_i text
    split at h
    · rename_i htext
      cases h
      exact .anchoredStart htext
    · cases h
  · rename_i rest
    split at h
    · rename_i hrest
      cases h
      obtain ⟨c, inner, rfl, hc, hcaret, hinner⟩ := isClassTail_iff.1 hrest
      exact .bracket hc hcaret hinner
    · cases h
  · cases h
  · rename_i hne
    cases h
    rw [List.append_nil]
    exact .literal (isWord_iff.2 ⟨fun hnil => hne hnil, hplain⟩)
  · rename_i hne
    cases h
    exact .anchoredEnd (isWord_iff.2 ⟨fun hnil => hne hnil, hplain⟩)
  · rename_i hne
    split at h
    · rename_i hright
      cases h
      exact .alternation (isWord_iff.2 ⟨fun hnil => hne hnil, hplain⟩) hright
    · cases h
  · rename_i c
    cases h
    exact .star (hplain c (by simp))
  · cases h

/-- A pattern that is written in the way of a shape has the shape, and not one that is tested for
earlier. -/
theorem ofPattern?_of_fits {pattern : List Char} {shape : Shape} (h : Fits pattern shape) :
    ofPattern? pattern = some shape := by
  cases h with
  -- a word is taken whole, so the end that is left decides among the first shapes
  | literal hw =>
      obtain ⟨hne, hplain⟩ := isWord_iff.1 hw
      rw [ofPattern?, List.takeWhile_eq_self_iff.2 hplain, List.dropWhile_eq_nil_iff.2 hplain]
      cases pattern with
      | nil => exact absurd rfl hne
      | cons c rest => rfl
  | @anchoredStart w hw =>
      show (if isWord w then _ else _) = _
      rw [if_pos hw]
  | @anchoredEnd w hw =>
      obtain ⟨htake, hdrop⟩ := takeWhile_word hw (c := '$') (by decide) []
      rw [ofPattern?, htake, hdrop]
      cases w with
      | nil => exact absurd rfl (isWord_iff.1 hw).1
      | cons c rest => rfl
  | @alternation v w hv hw =>
      obtain ⟨htake, hdrop⟩ := takeWhile_word hv (c := '|') (by decide) w
      rw [ofPattern?, htake, hdrop]
      cases v with
      | nil => exact absurd rfl (isWord_iff.1 hv).1
      | cons c rest =>
          show (if isWord w then _ else _) = _
          rw [if_pos hw]
  | @star c hc =>
      obtain ⟨htake, hdrop⟩ := takeWhile_word (w := [c]) (by simp [isWord, hc]) (c := '*')
        (by decide) []
      show ofPattern? ([c] ++ '*' :: []) = _
      rw [ofPattern?, htake, hdrop]
      rfl
  | @bracket c inner hc hcaret hinner =>
      have htail : isClassTail (c :: inner ++ [']']) = true :=
        isClassTail_iff.2 ⟨c, inner, rfl, hc, hcaret, hinner⟩
      show (if isClassTail (c :: inner ++ [']']) then _ else _) = _
      rw [if_pos htail]

/-- **A shape is told from its patterns.** -/
theorem ofPattern?_eq_some_iff {pattern : List Char} {shape : Shape} :
    ofPattern? pattern = some shape ↔ Fits pattern shape :=
  ⟨fits_of_ofPattern?, ofPattern?_of_fits⟩

theorem not_reserved {c : Char} (hc : isPlain c = true) : c ∉ reserved := by
  intro hmem
  refine isPlain_iff.1 hc ?_
  simp only [reserved, List.mem_cons, List.not_mem_nil, or_false] at hmem
  rcases hmem with rfl | rfl | rfl | rfl | rfl | rfl | rfl | rfl | rfl <;> decide

end Shape

/-! ### Their derivations -/

/-- `Denotes d text symbols language`: a derivation of `text` without classes and groups, which is
written with `symbols` and denotes the words of `language`.  It is without `.`, so what `.` stands
for is left open. -/
structure Derivation.Denotes {k : Category} (d : Derivation k) (text symbols : List Char)
    (language : List Char → Prop) : Prop where
  text_eq : d.text = text
  classes_eq : d.classes = []
  depth_eq : d.depth = 0
  symbols_eq : ∀ any, (d.regex any).symbols = .ofList symbols
  matches_iff : ∀ any w, (d.regex any).Matches w ↔ language w

namespace Derivation

/-- A plain character denotes itself, as a word of one symbol. -/
theorem denotes_plain {c : Char} (hc : c ∉ reserved) :
    (once (plain c hc)).Denotes [c] [c] fun w => w = [c] where
  text_eq := rfl
  classes_eq := rfl
  depth_eq := rfl
  symbols_eq _ := rfl
  matches_iff any w := by
    show Regex.Matches (.oneOf (.ofList [c])) w ↔ _
    simp [Regex.matches_oneOf, Alphabet.mem_ofList]

theorem Denotes.one {f : Derivation .factor} {text symbols : List Char}
    {language : List Char → Prop} (h : f.Denotes text symbols language) :
    (Derivation.one f).Denotes text symbols language :=
  ⟨h.text_eq, h.classes_eq, h.depth_eq, h.symbols_eq, h.matches_iff⟩

theorem Denotes.sequence {fs : Derivation .factors} {text symbols : List Char}
    {language : List Char → Prop} (h : fs.Denotes text symbols language) :
    (Derivation.sequence fs).Denotes text symbols language :=
  ⟨h.text_eq, h.classes_eq, h.depth_eq, h.symbols_eq, h.matches_iff⟩

theorem Denotes.alternative {t : Derivation .term} {text symbols : List Char}
    {language : List Char → Prop} (h : t.Denotes text symbols language) :
    (Derivation.alternative t).Denotes text symbols language :=
  ⟨h.text_eq, h.classes_eq, h.depth_eq, h.symbols_eq, h.matches_iff⟩

/-- **Words of plain characters are in the grammar**, and denote themselves.  The induction is
from the end of the word, as factors lean to the left. -/
theorem exists_word {w : List Char} (hne : w ≠ []) (hplain : ∀ c ∈ w, c ∉ reserved) :
    ∃ fs : Derivation .factors, (fs.Denotes w w fun v => v = w) ∧
      ∀ any, (fs.regex any).SpellsOut w := by
  induction w using List.reverseRecOn with
  | nil => exact absurd rfl hne
  | append_singleton w c ih =>
      have hc := denotes_plain (hplain c (by simp))
      by_cases hw : w = []
      · subst hw
        rw [List.nil_append]
        refine ⟨.one (.once (.plain c (hplain c (by simp)))), hc.one, fun any => ?_⟩
        rw [regex, regex, regex]
        exact .symbol c
      · obtain ⟨fs, hfs, hspells⟩ := ih hw fun d hd => hplain d (by simp [hd])
        -- a word grows at its end, as the factors of a sequence do
        refine ⟨.more fs (.once (.plain c (hplain c (by simp)))), ⟨?_, ?_, ?_, ?_, ?_⟩,
          fun any => ?_⟩
        · rw [text, hfs.text_eq, hc.text_eq]
        · rw [classes, hfs.classes_eq, hc.classes_eq, List.append_nil]
        · rw [depth, hfs.depth_eq, hc.depth_eq, Nat.max_self]
        · intro any
          ext d
          rw [regex, Regex.symbols, Std.ExtTreeSet.mem_union_iff, hfs.symbols_eq, hc.symbols_eq]
          simp [Alphabet.mem_ofList]
        · intro any v
          rw [regex, Regex.matches_concat]
          constructor
          · rintro ⟨u, u', rfl, hu, hu'⟩
            rw [(hfs.matches_iff any u).1 hu, (hc.matches_iff any u').1 hu']
          · rintro rfl
            exact ⟨w, [c], rfl, (hfs.matches_iff any w).2 rfl, (hc.matches_iff any [c]).2 rfl⟩
        · rw [regex, regex, regex]
          exact .more c (hspells any)

end Derivation

namespace Shape

/-- A word is its own pattern, and it is spelled out. -/
theorem exists_literal {w : List Char} (hw : isWord w = true) :
    ∃ t : Derivation .term, (t.Denotes w w fun v => v = w) ∧
      ∀ any, (t.regex any).SpellsOut w := by
  obtain ⟨hne, hplain⟩ := isWord_iff.1 hw
  obtain ⟨fs, hfs, hspells⟩ := Derivation.exists_word hne fun c hc => not_reserved (hplain c hc)
  exact ⟨.sequence fs, hfs.sequence, hspells⟩

theorem exists_alternation {v w : List Char} (hv : isWord v = true) (hw : isWord w = true) :
    ∃ e : Derivation .expression,
      (e.Denotes (v ++ '|' :: w) (v ++ w) fun u => u = v ∨ u = w) ∧
      ∀ any, ∃ l r : Regex, e.regex any = .union l r ∧ l.SpellsOut v ∧ r.SpellsOut w := by
  obtain ⟨s, hs, hv⟩ := exists_literal hv
  obtain ⟨t, ht, hw⟩ := exists_literal hw
  refine ⟨.either (.alternative s) t, ⟨?_, ?_, ?_, ?_, ?_⟩,
    fun any => ⟨_, _, rfl, hv any, hw any⟩⟩
  · show s.text ++ '|' :: t.text = _
    rw [hs.text_eq, ht.text_eq]
  · show s.classes ++ t.classes = _
    rw [hs.classes_eq, ht.classes_eq, List.append_nil]
  · show max s.depth t.depth = _
    rw [hs.depth_eq, ht.depth_eq, Nat.max_self]
  · intro any
    ext c
    show c ∈ (s.regex any).symbols ∪ (t.regex any).symbols ↔ _
    rw [Std.ExtTreeSet.mem_union_iff, hs.symbols_eq, ht.symbols_eq]
    simp [Alphabet.mem_ofList]
  · intro any u
    show Regex.Matches (.union (s.regex any) (t.regex any)) u ↔ _
    rw [Regex.matches_union, hs.matches_iff, ht.matches_iff]

theorem exists_star {c : Char} (hc : isPlain c = true) :
    ∃ e : Derivation .expression, e.Denotes [c, '*'] [c] fun w => ∀ d ∈ w, d = c := by
  have hplain := Derivation.denotes_plain (not_reserved hc)
  refine ⟨.alternative (.sequence (.one (.repeated (.once (.plain c (not_reserved hc))) .star))),
    rfl, rfl, rfl, fun _ => rfl, ?_⟩
  intro any w
  show Regex.Matches (.star (.oneOf (.ofList [c]))) w ↔ _
  rw [Regex.matches_star]
  constructor
  · rintro ⟨parts, rfl, hparts⟩ d hd
    obtain ⟨part, hpart, hd⟩ := List.mem_flatten.1 hd
    rw [(hplain.matches_iff any part).1 (hparts part hpart)] at hd
    exact List.mem_singleton.1 hd
  · intro hall
    refine ⟨w.map fun d => [d], by rw [← List.flatMap_def, List.flatMap_singleton'], ?_⟩
    intro part hpart
    obtain ⟨d, hd, rfl⟩ := List.mem_map.1 hpart
    exact (hplain.matches_iff any [d]).2 (by rw [hall d hd])

/-! ### Their anchors -/

theorem unanchored_self {pattern : List Char} (hcaret : pattern.head? ≠ some '^')
    (hdollar : pattern.getLast? ≠ some '$') : Unanchored pattern pattern := by
  refine ⟨pattern, .inr ⟨rfl, hcaret⟩, .inr ⟨rfl, ?_⟩⟩
  rintro front rfl
  exact absurd (List.getLast?_concat) hdollar

theorem isWord_ends {w : List Char} (hw : isWord w = true) {c : Char} (hc : c ∈ signs) :
    w.head? ≠ some c ∧ w.getLast? ≠ some c := by
  have hnot : c ∉ w := fun hmem => isPlain_iff.1 ((isWord_iff.1 hw).2 c hmem) hc
  exact ⟨fun hhead => hnot (List.mem_of_mem_head? hhead),
    fun hlast => hnot (List.mem_of_mem_getLast? hlast)⟩

theorem unanchored_literal {w : List Char} (hw : isWord w = true) : Unanchored w w :=
  unanchored_self (isWord_ends hw (by decide)).1 (isWord_ends hw (by decide)).2

theorem unanchored_anchoredStart {w : List Char} (hw : isWord w = true) :
    Unanchored ('^' :: w) w := by
  refine ⟨w, .inl rfl, .inr ⟨rfl, ?_⟩⟩
  rintro front rfl
  exact absurd List.getLast?_concat (isWord_ends hw (by decide)).2

theorem unanchored_anchoredEnd {w : List Char} (hw : isWord w = true) :
    Unanchored (w ++ ['$']) w := by
  obtain ⟨hne, hplain⟩ := isWord_iff.1 hw
  refine ⟨w ++ ['$'], .inr ⟨rfl, ?_⟩, .inl ⟨rfl, w, 0, by simp, ?_⟩⟩
  · rw [List.head?_append_of_ne_nil _ hne]
    exact (isWord_ends hw (by decide)).1
  · exact (isWord_ends hw (by decide)).2

theorem unanchored_alternation {v w : List Char} (hv : isWord v = true) (hw : isWord w = true) :
    Unanchored (v ++ '|' :: w) (v ++ '|' :: w) := by
  refine unanchored_self ?_ ?_
  · rw [List.head?_append_of_ne_nil _ (isWord_iff.1 hv).1]
    exact (isWord_ends hv (by decide)).1
  · rw [List.getLast?_append_of_ne_nil _ (by simp),
      List.getLast?_cons_of_ne_nil (isWord_iff.1 hw).1]
    exact (isWord_ends hw (by decide)).2

end Shape

end PatternAutomata
