import PatternAutomata.Pattern.Assembly
import PatternAutomata.Proofs.Pattern.Classes

/-!
# What is read is in the grammar

A pattern that is read is derived in the grammar, and the tree that comes of it is what the
derivation denotes (`Assembly.exists_derivation`).

## The parts of a level are derivations

A level keeps trees, and each of them stands for a part of the text: the alternatives before the
last bar, the factors before the last one, and the last factor.  That is all that has to be known
about the text behind a level (`Level.Reads`).  The levels around an open group each end in the
parenthesis that opened the next, so an assembly stands for all of the text that was read
(`Assembly.Reads`).

## Token by token

Taking in a token puts its text behind the text that was read (`Assembly.Reads.step`), whichever
of the rules it completes.  A token that is cut off is never taken in, so at the end of a reading
there is a text for every token.  The induction is on the length of what is left of the text, as
tokens have texts of different lengths.
-/

namespace PatternAutomata

open Regex (Sized)

/-! ### Operators under a ceiling -/

namespace Ceiling

variable {ceiling : Ceiling} {l r s : Sized}

theorem union_ok (h : ceiling.union l r = .ok s) : s = l.union r := by
  obtain ⟨_, _, h⟩ := Error.bind_eq_ok_iff.1 h
  obtain ⟨_, _, h⟩ := Error.bind_eq_ok_iff.1 h
  cases h
  rfl

theorem concat_ok (h : ceiling.concat l r = .ok s) : s = l.concat r := by
  obtain ⟨_, _, h⟩ := Error.bind_eq_ok_iff.1 h
  obtain ⟨_, _, h⟩ := Error.bind_eq_ok_iff.1 h
  cases h
  rfl

theorem repeated_ok {sign : Quantifier} (h : ceiling.repeated sign r = .ok s) :
    s = r.repeated sign := by
  obtain ⟨_, _, h⟩ := Error.bind_eq_ok_iff.1 h
  cases sign with
  | star =>
      obtain ⟨_, _, h⟩ := Error.bind_eq_ok_iff.1 h
      cases h
      rfl
  | plus =>
      obtain ⟨_, _, h⟩ := Error.bind_eq_ok_iff.1 h
      cases h
      rfl
  | optional =>
      obtain ⟨_, _, h⟩ := Error.bind_eq_ok_iff.1 h
      cases h
      rfl

end Ceiling

/-! ### Levels -/

/-- `PartRead dot k part text`: the part of a level is what the text denotes, which is derived in
the category, or there is none and the text is empty. -/
inductive PartRead (dot : Alphabet) (k : Category) : Option Sized → List Char → Prop where
  | none : PartRead dot k none []
  | some (d : Derivation k) {s : Sized} : s.regex = d.regex dot → PartRead dot k (some s) d.text

/-- The same for the alternatives of a level, which end in a bar. -/
inductive AlternativesRead (dot : Alphabet) : Option Sized → List Char → Prop where
  | none : AlternativesRead dot none []
  | some (e : Derivation .expression) {s : Sized} : s.regex = e.regex dot →
      AlternativesRead dot (some s) (e.text ++ ['|'])

namespace Level

variable {dot : Alphabet} {ceiling : Ceiling} {level next : Level} {text : List Char}

/-- **A level is what has been read of a group**: its parts stand for the parts of a text. -/
def Reads (dot : Alphabet) (level : Level) (text : List Char) : Prop :=
  ∃ alternatives front last, text = alternatives ++ front ++ last ∧
    AlternativesRead dot level.alternatives alternatives ∧
    PartRead dot .factors level.front front ∧ PartRead dot .factor level.last last

namespace Reads

theorem start : Level.start.Reads dot [] :=
  ⟨[], [], [], rfl, .none, .none, .none⟩

theorem join (h : level.Reads dot text) (hjoin : level.join ceiling = .ok next) :
    next.Reads dot text ∧ next.last = none := by
  obtain ⟨alternatives, front, last, rfl, halternatives, hfront, hlast⟩ := h
  obtain ⟨_, levelFront, levelLast⟩ := level
  cases hlast with
  | none =>
      cases hjoin
      exact ⟨⟨alternatives, front, [], rfl, halternatives, hfront, .none⟩, rfl⟩
  | some f hf =>
      cases hfront with
      | none =>
          cases hjoin
          refine ⟨⟨alternatives, f.text, [], by simp, halternatives, ?_, .none⟩, rfl⟩
          exact .some (.one f) hf
      | some fs hfs =>
          obtain ⟨joined, hjoined, hnext⟩ := Error.bind_eq_ok_iff.1 hjoin
          cases hnext
          refine ⟨⟨alternatives, (Derivation.more fs f).text, [], ?_, halternatives, ?_, .none⟩,
            rfl⟩
          · simp [Derivation.text]
          · refine .some (.more fs f) ?_
            rw [Ceiling.concat_ok hjoined, Derivation.regex, ← hfs, ← hf]
            rfl

/-- A factor after what has been read, once the factor before it was joined. -/
theorem factor (h : level.Reads dot text) (hlast : level.last = none)
    (f : Derivation .factor) {s : Sized} (hs : s.regex = f.regex dot) :
    { level with last := some s }.Reads dot (text ++ f.text) := by
  obtain ⟨alternatives, front, last, rfl, halternatives, hfront, hnone⟩ := h
  rw [hlast] at hnone
  cases hnone
  exact ⟨alternatives, front, f.text, by simp, halternatives, hfront, .some f hs⟩

/-- A sign of repetition after what has been read, which changes the last factor and its text. -/
theorem repetition {s grown : Sized} {sign : Quantifier} (h : level.Reads dot text)
    (hlast : level.last = some s) (hgrown : ceiling.repeated sign s = .ok grown) :
    { level with last := some grown }.Reads dot (text ++ [sign.char]) := by
  obtain ⟨alternatives, front, last, rfl, halternatives, hfront, hsome⟩ := h
  rw [hlast] at hsome
  cases hsome with
  | some f hf =>
      refine ⟨alternatives, front, (Derivation.repeated f sign).text, ?_, halternatives, hfront,
        .some (.repeated f sign) ?_⟩
      · simp [Derivation.text]
      · rw [Ceiling.repeated_ok hgrown, Derivation.regex, ← hf]
        rfl

/-- All of a group is an expression, whether or not it has factors. -/
theorem close {whole : Sized} (h : level.Reads dot text)
    (hclose : level.close ceiling = .ok whole) :
    ∃ e : Derivation .expression, text = e.text ∧ whole.regex = e.regex dot := by
  obtain ⟨joined, hjoin, hwhole⟩ := Error.bind_eq_ok_iff.1 hclose
  obtain ⟨⟨alternatives, front, last, rfl, halternatives, hfront, hlast⟩, hnone⟩ := h.join hjoin
  rw [hnone] at hlast
  cases hlast
  have hterm : ∃ t : Derivation .term, front = t.text ∧
      (joined.front.getD .empty).regex = t.regex dot := by
    generalize joined.front = part at hfront ⊢
    cases hfront with
    | none => exact ⟨.nothing, rfl, rfl⟩
    | some fs hfs => exact ⟨.sequence fs, rfl, hfs⟩
  obtain ⟨t, rfl, ht⟩ := hterm
  generalize joined.alternatives = before at halternatives hwhole
  cases halternatives with
  | none =>
      cases hwhole
      exact ⟨.alternative t, by simp [Derivation.text], ht⟩
  | some e he =>
      refine ⟨.either e t, by simp [Derivation.text], ?_⟩
      rw [Ceiling.union_ok hwhole, Derivation.regex, ← he, ← ht]
      rfl

end Reads

end Level

/-! ### Assemblies -/

/-- The levels around an open group are what has been read before it.  Nothing in them waits for a
sign of repetition, as a parenthesis was read since. -/
def OuterReads (dot : Alphabet) : List (Nat × Level) → List Char → Prop
  | [], text => text = []
  | (_, level) :: outer, text => ∃ before inside, text = before ++ inside ++ ['('] ∧
      OuterReads dot outer before ∧ level.Reads dot inside ∧ level.last = none

namespace Assembly

variable {config : Config} {ceiling : Ceiling} {dot : Alphabet} {a next : Assembly}
variable {text : List Char}

/-- **An assembly is what has been read of a pattern**, in the open groups and around them. -/
def Reads (dot : Alphabet) (a : Assembly) (text : List Char) : Prop :=
  ∃ before inside, text = before ++ inside ∧ OuterReads dot a.outer before ∧
    a.level.Reads dot inside

namespace Reads

theorem start : Assembly.start.Reads dot [] :=
  ⟨[], [], rfl, rfl, .start⟩

/-- A choice of symbols reads the text of an atom. -/
theorem addChoice {symbols : Except Error Alphabet} {first : List Char}
    (h : a.Reads dot text) (hadd : a.addChoice ceiling symbols = .ok next)
    (hatom : ∀ chosen, symbols = .ok chosen → ∃ d : Derivation .atom,
      first = d.text ∧ d.regex dot = .oneOf chosen) :
    next.Reads dot (text ++ first) := by
  obtain ⟨before, inside, rfl, houter, hlevel⟩ := h
  obtain ⟨joined, hjoin, hadd⟩ := Error.bind_eq_ok_iff.1 hadd
  obtain ⟨chosen, hchosen, hadd⟩ := Error.bind_eq_ok_iff.1 hadd
  cases hadd
  obtain ⟨d, rfl, hd⟩ := hatom chosen hchosen
  obtain ⟨hjoined, hnone⟩ := hlevel.join hjoin
  refine ⟨before, inside ++ d.text, by simp, houter, ?_⟩
  exact hjoined.factor hnone (.once d) hd.symm

theorem opening {offset : Nat} (h : a.Reads dot text)
    (hstep : a.step config ceiling (offset, .opening) = .ok next) :
    next.Reads dot (text ++ ['(']) := by
  obtain ⟨before, inside, rfl, houter, hlevel⟩ := h
  obtain ⟨joined, hjoin, hstep⟩ := Error.bind_eq_ok_iff.1 hstep
  cases hstep
  obtain ⟨hjoined, hnone⟩ := hlevel.join hjoin
  exact ⟨before ++ inside ++ ['('], [], by simp, ⟨before, inside, rfl, houter, hjoined, hnone⟩,
    .start⟩

theorem bar {offset : Nat} (h : a.Reads dot text)
    (hstep : a.step config ceiling (offset, .bar) = .ok next) :
    next.Reads dot (text ++ ['|']) := by
  obtain ⟨before, inside, rfl, houter, hlevel⟩ := h
  obtain ⟨whole, hclose, hstep⟩ := Error.bind_eq_ok_iff.1 hstep
  cases hstep
  obtain ⟨e, rfl, he⟩ := hlevel.close hclose
  refine ⟨before, e.text ++ ['|'], by simp, houter, ?_⟩
  exact ⟨e.text ++ ['|'], [], [], by simp, .some e he, .none, .none⟩

theorem closing {offset : Nat} (h : a.Reads dot text)
    (hstep : a.step config ceiling (offset, .closing) = .ok next) :
    next.Reads dot (text ++ [')']) := by
  obtain ⟨before, inside, rfl, houter, hlevel⟩ := h
  obtain ⟨whole, hclose, hstep⟩ := Error.bind_eq_ok_iff.1 hstep
  obtain ⟨e, rfl, he⟩ := hlevel.close hclose
  obtain ⟨level, outer⟩ := a
  cases outer with
  | nil => cases hstep
  | cons around outer =>
      cases hstep
      obtain ⟨front, rest, rfl, houter, hrest, hnone⟩ := houter
      refine ⟨front, rest ++ (Derivation.once (.group e)).text, ?_, houter, ?_⟩
      · simp [Derivation.text]
      · exact hrest.factor hnone (.once (.group e)) he

theorem repetition {offset : Nat} {sign : Quantifier} (h : a.Reads dot text)
    (hstep : a.step config ceiling (offset, .repetition sign) = .ok next) :
    next.Reads dot (text ++ [sign.char]) := by
  obtain ⟨before, inside, rfl, houter, hlevel⟩ := h
  simp only [Assembly.step] at hstep
  split at hstep
  · cases hstep
  · rename_i s hlast
    obtain ⟨grown, hgrown, hstep⟩ := Error.bind_eq_ok_iff.1 hstep
    cases hstep
    exact ⟨before, inside ++ [sign.char], by simp, houter, hlevel.repetition hlast hgrown⟩

/-- **Taking in a token reads the text of the token.** -/
theorem step {offset : Nat} {first : List Char} {token : Token}
    (h : a.Reads config.dotAlphabet text) (hwritten : Token.Written offset first token)
    (hstep : a.step config ceiling (offset, token) = .ok next) :
    next.Reads config.dotAlphabet (text ++ first) := by
  cases hwritten with
  | escaped c =>
      refine h.addChoice hstep ?_
      rintro chosen ⟨⟩
      exact ⟨.escaped c, rfl, rfl⟩
  | bracket hlegal =>
      refine h.addChoice hstep ?_
      intro chosen hchosen
      obtain ⟨cls, rfl, rfl⟩ := Bracket.exists_class hlegal hchosen
      exact ⟨.bracket cls, rfl, rfl⟩
  | @char c hescape hopen =>
      -- what a single character writes depends on the character
      have hsigned := Token.signed_ofChar c
      generalize Token.ofChar c = token at hsigned hstep
      cases hsigned with
      | dot =>
          refine h.addChoice hstep ?_
          rintro chosen ⟨⟩
          exact ⟨.dot, rfl, rfl⟩
      | bar => exact h.bar hstep
      | opening => exact h.opening hstep
      | closing => exact h.closing hstep
      | repetition sign => exact h.repetition hstep
      | symbol hplain =>
          refine h.addChoice hstep ?_
          rintro chosen ⟨⟩
          exact ⟨.plain c (hplain hescape hopen), rfl, rfl⟩

end Reads

/-- A token that is cut off is not taken in, whatever was read before. -/
theorem step_broken {offset : Nat} {token : Token} (hbroken : token.Broken) :
    a.step config ceiling (offset, token) ≠ .ok next := by
  intro hstep
  cases token with
  | bracket b =>
      obtain ⟨_, _, hstep⟩ := Error.bind_eq_ok_iff.1 hstep
      obtain ⟨symbols, hsymbols, _⟩ := Error.bind_eq_ok_iff.1 hstep
      exact hbroken (Bracket.members_eq_ok_iff.1 hsymbols).1
  | dangling =>
      obtain ⟨_, _, hstep⟩ := Error.bind_eq_ok_iff.1 hstep
      cases hstep
  | symbol c => exact hbroken
  | dot => exact hbroken
  | bar => exact hbroken
  | opening => exact hbroken
  | closing => exact hbroken
  | repetition sign => exact hbroken

/-- **Reading on to the end of a pattern** derives the text that was read and what was left. -/
theorem Reads.run {offset : Nat} {rest : List Char} {whole : Sized}
    (h : a.Reads config.dotAlphabet text)
    (hrun : a.run config ceiling (Token.scan offset rest) = .ok whole) :
    ∃ e : Derivation .expression, text ++ rest = e.text ∧
      whole.regex = e.regex config.dotAlphabet := by
  -- a token has at least one character, so the induction is on the length of what is left
  induction hn : rest.length using Nat.strongRecOn generalizing rest offset a text with
  | _ n ih =>
    obtain ⟨final, hfold, hfinish⟩ := Error.bind_eq_ok_iff.1 hrun
    rcases Token.scan_cases offset rest with
      rfl | ⟨first, rest, token, rfl, hwritten⟩ | ⟨token, hbroken, hscan⟩
    · rw [Token.scan_nil] at hfold
      cases hfold
      obtain ⟨before, inside, rfl, houter, hlevel⟩ := h
      obtain ⟨closed, hclose, hfinish⟩ := Error.bind_eq_ok_iff.1 hfinish
      obtain ⟨e, rfl, he⟩ := hlevel.close hclose
      obtain ⟨level, outer⟩ := a
      cases outer with
      | nil =>
          cases hfinish
          cases houter
          exact ⟨e, by simp, he⟩
      | cons around outer => cases hfinish
    · rw [hwritten.scan_append, List.foldlM_cons] at hfold
      obtain ⟨next, hstep, hfold⟩ := Error.bind_eq_ok_iff.1 hfold
      have hlt : rest.length < n := by
        have hpos := List.length_pos_iff.2 hwritten.ne_nil
        rw [List.length_append] at hn
        omega
      have hrun : next.run config ceiling (Token.scan (offset + first.length) rest) =
          .ok whole :=
        Error.bind_eq_ok_iff.2 ⟨final, hfold, hfinish⟩
      rw [← List.append_assoc]
      exact ih _ hlt (h.step hwritten hstep) hrun rfl
    · rw [hscan, List.foldlM_cons] at hfold
      obtain ⟨next, hstep, _⟩ := Error.bind_eq_ok_iff.1 hfold
      exact absurd hstep (step_broken hbroken)

/-- **What is read is in the grammar**, and the tree is what the derivation denotes. -/
theorem exists_derivation {offset : Nat} {whole : Sized}
    (h : start.run config ceiling (Token.scan offset text) = .ok whole) :
    ∃ e : Derivation .expression, text = e.text ∧
      whole.regex = e.regex config.dotAlphabet :=
  Reads.start.run h

end Assembly

end PatternAutomata
