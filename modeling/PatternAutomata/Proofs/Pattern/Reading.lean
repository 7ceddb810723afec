import Mathlib.Data.List.TakeWhile
import PatternAutomata.Proofs.Pattern.Completeness
import PatternAutomata.Proofs.Pattern.Unambiguous

/-!
# Reading a pattern

A pattern without its anchors is read iff it is in the grammar, up to ceilings, and its derivation
denotes the tree that is read.  This module puts the two directions together for whole patterns
(`Regex.exists_derivation`, `Regex.parse_yields`).

## Anchors

A caret in front and a dollar at the end are anchors, and what is left without them is the body.
A dollar behind an odd number of backslashes is escaped and stays.  The reader counts the
backslashes; the grammar says that the text before the dollar ends in pairs of them.
`Body.text_ofPattern` says that this is the same, and so anchors are dealt with before anything is
derived.

## Texts that are a single class

A class that is read on its own is a pattern of one token, and its tree is the choice of its
symbols (`Regex.parse_of_scan`).  The bracket expressions of the fast paths are read in this way.

## Unambiguity

Derivations of the same text are equal, and a pattern has one body; so a pattern has one
derivation at most (`Derivation.unique`), and one may speak of its derivation.
-/

namespace PatternAutomata

open Error (Yields)

/-! ### Anchors -/

theorem takeWhile_append_replicate {front : List Char} (n : Nat)
    (h : front.getLast? ≠ some '\\') :
    ((front ++ List.replicate n '\\').reverse.takeWhile (· == '\\')).length = n := by
  rw [List.reverse_append, List.reverse_replicate,
    List.takeWhile_append_of_pos (by simp)]
  have hfront : front.reverse.takeWhile (· == '\\') = [] := by
    cases hreverse : front.reverse with
    | nil => rfl
    | cons c rest =>
        have hc : c ≠ '\\' := by
          rintro rfl
          rw [← List.head?_reverse, hreverse] at h
          exact h rfl
        simp [hc]
  simp [hfront]

/-- The number of backslashes at the end tells whether a dollar after them is escaped. -/
theorem endsUnescaped_iff (text : List Char) :
    EndsUnescaped text ↔ (text.reverse.takeWhile (· == '\\')).length % 2 = 0 := by
  constructor
  · rintro ⟨front, n, rfl, hfront⟩
    rw [takeWhile_append_replicate _ hfront]
    omega
  · intro h
    have hsplit := List.takeWhile_append_dropWhile (p := (· == '\\')) (l := text.reverse)
    have hslashes : text.reverse.takeWhile (· == '\\') =
        List.replicate (text.reverse.takeWhile (· == '\\')).length '\\' := by
      refine List.eq_replicate_iff.2 ⟨rfl, ?_⟩
      intro c hc
      simpa using List.mem_takeWhile_imp hc
    refine ⟨(text.reverse.dropWhile (· == '\\')).reverse,
      (text.reverse.takeWhile (· == '\\')).length / 2, ?_, ?_⟩
    · have heven : 2 * ((text.reverse.takeWhile (· == '\\')).length / 2) =
          (text.reverse.takeWhile (· == '\\')).length := by
        omega
      rw [heven, ← List.reverse_replicate, ← List.reverse_append, ← hslashes, hsplit,
        List.reverse_reverse]
    · rw [List.getLast?_reverse]
      intro hhead
      have hnot := List.head?_dropWhile_not (· == '\\') text.reverse
      rw [hhead] at hnot
      simp at hnot

namespace Body

theorem dropDollar_append (text : List Char) :
    dropDollar (text ++ ['$']) =
      if (text.reverse.takeWhile (· == '\\')).length % 2 = 0 then text else text ++ ['$'] := by
  simp [dropDollar]

theorem dropDollar_of_ne {text : List Char} (h : ∀ front, text ≠ front ++ ['$']) :
    dropDollar text = text := by
  rw [dropDollar]
  split
  · rename_i before hreverse
    have htext := congrArg List.reverse hreverse
    rw [List.reverse_reverse, List.reverse_cons] at htext
    exact absurd htext (h before.reverse)
  · rfl

theorem withoutDollar_iff {text body : List Char} :
    WithoutDollar text body ↔ dropDollar text = body := by
  -- only a last `$` can be an anchor, and it is one unless a backslash escapes it
  by_cases hdollar : ∃ front, text = front ++ ['$']
  · obtain ⟨front, rfl⟩ := hdollar
    rw [dropDollar_append]
    by_cases hfront : EndsUnescaped front
    · rw [if_pos ((endsUnescaped_iff front).1 hfront)]
      constructor
      · rintro (⟨heq, _⟩ | ⟨_, hall⟩)
        · exact List.append_cancel_right heq
        · exact absurd hfront (hall front rfl)
      · rintro rfl
        exact .inl ⟨rfl, hfront⟩
    · rw [if_neg fun h => hfront ((endsUnescaped_iff front).2 h)]
      constructor
      · rintro (⟨heq, hbody⟩ | ⟨heq, _⟩)
        · rw [List.append_cancel_right heq] at hfront
          exact absurd hbody hfront
        · exact heq
      · rintro rfl
        refine .inr ⟨rfl, ?_⟩
        intro other hother
        rw [← List.append_cancel_right hother]
        exact hfront
  · have hne : ∀ front, text ≠ front ++ ['$'] := fun front h => hdollar ⟨front, h⟩
    rw [dropDollar_of_ne hne]
    constructor
    · rintro (⟨heq, _⟩ | ⟨heq, _⟩)
      · exact absurd heq (hne body)
      · exact heq
    · rintro rfl
      exact .inr ⟨rfl, fun front h => absurd h (hne front)⟩

/-- **The body of a pattern is what is left without the anchors**, and there is one such body for
every pattern. -/
theorem text_ofPattern {pattern body : List Char} :
    Unanchored pattern body ↔ (ofPattern pattern).text = body := by
  cases pattern with
  | nil =>
      constructor
      · rintro ⟨rest, hcaret | ⟨rfl, _⟩, hbody⟩
        · cases hcaret
        · exact withoutDollar_iff.1 hbody
      · intro h
        exact ⟨[], .inr ⟨rfl, by simp⟩, withoutDollar_iff.2 h⟩
  | cons c rest =>
      by_cases hc : c = '^'
      · subst hc
        rw [ofPattern_caret]
        constructor
        · rintro ⟨rest', hcaret | ⟨_, hne⟩, hbody⟩
          · cases hcaret
            exact withoutDollar_iff.1 hbody
          · exact absurd rfl hne
        · intro h
          exact ⟨rest, .inl rfl, withoutDollar_iff.2 h⟩
      · rw [ofPattern_of_ne_caret hc]
        constructor
        · rintro ⟨rest', hcaret | ⟨rfl, _⟩, hbody⟩
          · exact absurd (List.cons.inj hcaret).1 hc
          · exact withoutDollar_iff.1 hbody
        · intro h
          refine ⟨c :: rest, .inr ⟨rfl, ?_⟩, withoutDollar_iff.2 h⟩
          intro hhead
          exact hc (Option.some.inj hhead)

/-- A character of the body is a character of the pattern, moved by one if there is a caret in
front. -/
theorem getElem?_ofPattern {pattern : List Char} {i : Nat} {c : Char}
    (h : (ofPattern pattern).text[i]? = some c) :
    pattern[(ofPattern pattern).offset + i]? = some c := by
  have hdollar : ∀ text : List Char, (dropDollar text)[i]? = some c → text[i]? = some c := by
    intro text h
    rcases withoutDollar_iff.2 (rfl : dropDollar text = dropDollar text) with ⟨heq, -⟩ | ⟨heq, -⟩
    · rw [heq]
      exact List.getElem?_append_left (List.getElem?_eq_some_iff.1 h).1 ▸ h
    · rw [heq]
      exact h
  cases pattern with
  | nil => cases h
  | cons first rest =>
      by_cases hfirst : first = '^'
      · subst hfirst
        rw [ofPattern_caret] at h ⊢
        rw [Nat.add_comm, List.getElem?_cons_succ]
        exact hdollar rest h
      · rw [ofPattern_of_ne_caret hfirst] at h ⊢
        rw [Nat.zero_add]
        exact hdollar _ h

end Body

/-! ### Patterns -/

namespace Regex

variable {config : Config} {strategy : Strategy} {pattern : List Char}

/-- **A pattern that is read is in the grammar**, and the tree is what its derivation denotes. -/
theorem exists_derivation {r : Regex} (h : parse config strategy pattern = .ok r) :
    ∃ e : Derivation .expression, Unanchored pattern e.text ∧ r = e.regex config.dotAlphabet := by
  obtain ⟨_, _, h⟩ := Error.bind_eq_ok_iff.1 h
  obtain ⟨whole, hrun, h⟩ := Error.bind_eq_ok_iff.1 h
  cases h
  obtain ⟨e, htext, hregex⟩ := Assembly.exists_derivation hrun
  exact ⟨e, Body.text_ofPattern.2 htext, hregex⟩

/-- **A pattern of the grammar is read as what is derived**, up to causes among which are the
refusals of operators.  The last hypothesis is about the check of the depth, which comes first. -/
theorem parse_yields {E : Error → Prop} {e : Derivation .expression}
    (he : Unanchored pattern e.text)
    (hE : ∀ error, (⟨config.maxNfaStates, strategy⟩ : Ceiling).Hinders
      (e.regex config.dotAlphabet) error → E error)
    (hcls : ∀ cls ∈ e.classes, cls.Readable E config)
    (hdepth : Yields E (Assembly.checkDepth config.maxNestingDepth 0
      (Token.scan (Body.ofPattern pattern).offset e.text)) fun _ => True) :
    Yields E (parse config strategy pattern) (· = e.regex config.dotAlphabet) := by
  rw [← Body.text_ofPattern.1 he] at hdepth
  refine hdepth.bind fun _ _ => ?_
  rw [Body.text_ofPattern.1 he]
  refine (Assembly.run_yields e hE hcls _).bind ?_
  intro whole hwhole
  exact .ok hwhole

/-- Groups that do not lie too deep are in nobody's way, so only classes and operators remain. -/
theorem parse_yields_of_depth {E : Error → Prop} {e : Derivation .expression}
    (he : Unanchored pattern e.text)
    (hE : ∀ error, (⟨config.maxNfaStates, strategy⟩ : Ceiling).Refuses
      (e.regex config.dotAlphabet).states error → E error)
    (hcls : ∀ cls ∈ e.classes, cls.Readable E config)
    (hdepth : e.depth ≤ config.maxNestingDepth) :
    Yields E (parse config strategy pattern) (· = e.regex config.dotAlphabet) := by
  refine parse_yields he (fun error h => hE error h.2) hcls ?_
  have hpassed := Assembly.checkDepth_append e ((Nat.zero_add e.depth).symm ▸ hdepth)
    (Body.ofPattern pattern).offset []
  rw [List.append_nil] at hpassed
  rw [hpassed]
  exact .ok trivial

/-- **All derivations of a pattern denote the tree that is read**, if one is. -/
theorem parse_yields_any {e : Derivation .expression} (he : Unanchored pattern e.text)
    (config : Config) (strategy : Strategy) :
    Yields (fun _ => True) (parse config strategy pattern) (· = e.regex config.dotAlphabet) :=
  parse_yields he (fun _ _ => trivial) (fun cls _ => cls.readable config)
    (.of_ok (fun _ => trivial) fun _ _ => trivial)

end Regex

/-! ### Texts that are a single class -/

/-- A text that is a single class is its own body, as it starts and ends in a bracket. -/
theorem Body.ofPattern_bracketed (inner : List Char) :
    ofPattern ('[' :: inner ++ [']']) = ⟨'[' :: inner ++ [']'], 0⟩ := by
  rw [List.cons_append, ofPattern_of_ne_caret (by decide), dropDollar_of_ne]
  intro front heq
  have hlast := congrArg List.getLast? heq
  rw [← List.cons_append, List.getLast?_concat, List.getLast?_concat] at hlast
  exact absurd hlast (by decide)

theorem Bracket.membersOf_of_scan {limit : Nat} {text : List Char} {b : Bracket}
    (hscan : Token.scan 0 text = [(0, .bracket b)]) :
    membersOf limit text = b.members limit 0 := by
  rw [membersOf, hscan]
  cases hmembers : b.members limit 0 with
  | error e =>
      simp only [hmembers]
      rfl
  | ok symbols =>
      simp only [hmembers]
      rfl

/-- **Where a pattern is a single class**, its tree is the choice of the symbols of the class. -/
theorem Regex.parse_of_scan {config : Config} {strategy : Strategy} {inner : List Char}
    {b : Bracket} (hscan : Token.scan 0 ('[' :: inner ++ [']']) = [(0, .bracket b)]) :
    parse config strategy ('[' :: inner ++ [']']) =
      Regex.oneOf <$> b.members config.maxClassSize 0 := by
  rw [parse, Body.ofPattern_bracketed]
  simp only [hscan]
  rw [Assembly.run, List.foldlM_cons]
  cases hmembers : b.members config.maxClassSize 0 with
  | error e =>
      simp only [Assembly.step, hmembers]
      rfl
  | ok symbols =>
      simp only [Assembly.step, hmembers]
      rfl

/-! ### Unambiguity -/

/-- **The grammar is unambiguous**: a pattern has one derivation at most. -/
theorem Derivation.unique {pattern : List Char} {e e' : Derivation .expression}
    (he : Unanchored pattern e.text) (he' : Unanchored pattern e'.text) : e = e' :=
  eq_of_text_eq ((Body.text_ofPattern.1 he).symm.trans (Body.text_ofPattern.1 he'))

end PatternAutomata
