import Mathlib.Computability.Language
import PatternAutomata.Proofs.Nfa.OfRegex
import PatternAutomata.Proofs.Pattern.Grammar

/-!
# What a pattern denotes

Here is the language of a derivation, rule by rule, and the symbols that it is written with.  Both
are defined along the grammar and say nothing about automata or about how a pattern is read.

The tree of a derivation denotes the same language (`Derivation.matches_regex`) and is written
with the same symbols (`Derivation.mem_symbols_regex`).  The language is put together by the
operators of Mathlib on languages, so that what a pattern means can be read off definitions which
were made elsewhere.
-/

namespace PatternAutomata

open Computability

namespace Derivation

/-- **The language that is denoted**, where `.` stands for any symbol of `any`.  A group denotes
what is inside it, and the empty term the word without symbols. -/
def language (any : Alphabet) {k : Category} : Derivation k → Language Char
  | alternative t => t.language any
  | either e t => e.language any + t.language any
  | nothing => 1
  | sequence fs => fs.language any
  | one f => f.language any
  | more fs f => fs.language any * f.language any
  | once a => a.language any
  | repeated f .star => (f.language any)∗
  | repeated f .plus => f.language any * (f.language any)∗
  | repeated f .optional => 1 + f.language any
  | plain c _ => {w | w = [c]}
  | escaped c => {w | w = [c]}
  | dot => {w | ∃ c ∈ any, w = [c]}
  | bracket cls => {w | ∃ c, cls.Holds c ∧ w = [c]}
  | group e => e.language any

/-- `d.Writes any c`: an atom of the derivation is written with the symbol, `.` with all symbols
of `any`.  Whether a word of the language has the symbol does not matter. -/
def Writes (any : Alphabet) {k : Category} : Derivation k → Char → Prop
  | alternative t, c => t.Writes any c
  | either e t, c => e.Writes any c ∨ t.Writes any c
  | nothing, _ => False
  | sequence fs, c => fs.Writes any c
  | one f, c => f.Writes any c
  | more fs f, c => fs.Writes any c ∨ f.Writes any c
  | once a, c => a.Writes any c
  | repeated f _, c => f.Writes any c
  | plain b _, c => c = b
  | escaped b, c => c = b
  | dot, c => c ∈ any
  | bracket cls, c => cls.Holds c
  | group e, c => e.Writes any c

theorem matches_oneOf_singleton {c : Char} {w : List Char} :
    Regex.Matches (.oneOf (.ofList [c])) w ↔ w = [c] := by
  simp [Regex.matches_oneOf, Alphabet.mem_ofList]

/-- **The tree of a derivation denotes the language.** -/
theorem matches_regex {any : Alphabet} {k : Category} (d : Derivation k) {w : List Char} :
    (d.regex any).Matches w ↔ w ∈ d.language any := by
  induction d generalizing w with
  | alternative t ih => exact ih
  | either e t ihe iht =>
      rw [regex, language, Regex.matches_union, Language.mem_add, ihe, iht]
  | nothing => exact Regex.matches_empty
  | sequence fs ih => exact ih
  | one f ih => exact ih
  | more fs f ihfs ihf =>
      rw [regex, language, Regex.matches_concat, Language.mem_mul]
      constructor
      · rintro ⟨u, v, rfl, hu, hv⟩
        exact ⟨u, ihfs.1 hu, v, ihf.1 hv, rfl⟩
      · rintro ⟨u, hu, v, hv, rfl⟩
        exact ⟨u, v, rfl, ihfs.2 hu, ihf.2 hv⟩
  | once a ih => exact ih
  -- a loop and its words are needed twice, for the star and for the plus
  | repeated f sign ih =>
      have hstar : ∀ {w : List Char}, (Regex.star (f.regex any)).Matches w ↔
          w ∈ (f.language any)∗ := by
        intro w
        rw [Regex.matches_star, Language.mem_kstar]
        exact exists_congr fun parts => and_congr_right fun _ =>
          forall₂_congr fun part _ => ih
      cases sign with
      | star => exact hstar
      | plus =>
          show (Regex.plus (f.regex any)).Matches w ↔ w ∈ f.language any * (f.language any)∗
          rw [Regex.matches_plus, Language.mem_mul]
          constructor
          · rintro ⟨u, v, rfl, hu, hv⟩
            exact ⟨u, ih.1 hu, v, hstar.1 hv, rfl⟩
          · rintro ⟨u, hu, v, hv, rfl⟩
            exact ⟨u, v, rfl, ih.2 hu, hstar.2 hv⟩
      | optional =>
          show (Regex.optional (f.regex any)).Matches w ↔ w ∈ 1 + f.language any
          rw [Regex.matches_optional, Language.mem_add, Language.mem_one, ih]
  | plain c hc => exact matches_oneOf_singleton
  | escaped c => exact matches_oneOf_singleton
  | dot => exact Regex.matches_oneOf
  | bracket cls =>
      rw [regex, Regex.matches_oneOf]
      exact exists_congr fun c => and_congr_left fun _ => Class.mem_symbols
  | group e ih => exact ih

/-- **The tree of a derivation is written with the same symbols.** -/
theorem mem_symbols_regex {any : Alphabet} {k : Category} (d : Derivation k) {c : Char} :
    c ∈ (d.regex any).symbols ↔ d.Writes any c := by
  induction d with
  | alternative t ih => exact ih
  | either e t ihe iht =>
      rw [regex, Regex.symbols, Std.ExtTreeSet.mem_union_iff, ihe, iht, Writes]
  | nothing => simp [regex, Regex.symbols, Writes]
  | sequence fs ih => exact ih
  | one f ih => exact ih
  | more fs f ihfs ihf =>
      rw [regex, Regex.symbols, Std.ExtTreeSet.mem_union_iff, ihfs, ihf, Writes]
  | once a ih => exact ih
  | repeated f sign ih =>
      cases sign with
      | star => exact ih
      | plus => exact ih
      | optional => exact ih
  | plain b hb => simp [regex, Regex.symbols, Writes, Alphabet.mem_ofList]
  | escaped b => simp [regex, Regex.symbols, Writes, Alphabet.mem_ofList]
  | dot => exact Iff.rfl
  | bracket cls => exact Class.mem_symbols
  | group e ih => exact ih

end Derivation

end PatternAutomata
