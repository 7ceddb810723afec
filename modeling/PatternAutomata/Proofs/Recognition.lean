import PatternAutomata.Proofs.Minimize.Quotient
import PatternAutomata.Proofs.Nfa.OfRegex
import PatternAutomata.Proofs.Powerset

/-!
# Automata for regular expressions

An automaton is for a regular expression if it accepts the words that the expression denotes and
knows the symbols that it is written with.  The constructions lead from one such automaton to the
next: the powerset construction to a first one, completing and minimizing to others.

All ways from an expression to a minimal automaton end in the same (`Dfa.MinimalFor.same`).  The
expressions need not be equal, only their words and their symbols.  The symbols cannot be left
out, as a complete automaton has an edge under each of them.
-/

namespace PatternAutomata

namespace Dfa

variable {d e : Dfa} {r r' : Regex}

/-- `d.Recognizes r`: the automaton is for the expression, and all of its states are reached.  It
may lack edges. -/
structure Recognizes (d : Dfa) (r : Regex) : Prop where
  built : d.Built
  pos : 0 < d.numStates
  accessible : d.Accessible
  alphabet_eq : d.alphabet = r.symbols
  accepts_iff : ∀ w, d.accepts w = true ↔ r.Matches w

/-- `d.MinimalFor r`: the automaton is the complete and canonical one for the expression. -/
structure MinimalFor (d : Dfa) (r : Regex) : Prop where
  canonical : d.Canonical
  total : d.Total
  alphabet_eq : d.alphabet = r.symbols
  accepts_iff : ∀ w, d.accepts w = true ↔ r.Matches w

/-- A completed automaton is for the same expression, and the dead state that it may have been
given is reached. -/
theorem Recognizes.complete (h : d.Recognizes r) :
    ∃ whole dead, d.complete = .ok (whole, dead) ∧ whole.Recognizes r ∧ whole.Total := by
  rcases d.complete_ok with ⟨total, hok⟩ | ⟨partly, whole, hok, hsunk⟩
  · exact ⟨d, none, hok, h, total⟩
  · refine ⟨whole, some d.numStates, hok, ⟨hsunk.built h.built, ?_,
      hsunk.accessible partly h.accessible, hsunk.alphabet_eq.trans h.alphabet_eq, ?_⟩,
      hsunk.total⟩
    · rw [hsunk.numStates_eq]
      omega
    · intro w
      rw [hsunk.accepts_eq, h.accepts_iff]

/-- **A complete automaton is minimized to the minimal one.** -/
theorem Recognizes.minimize (h : d.Recognizes r) (total : d.Total) :
    ∃ m, d.minimize = .ok m ∧ m.MinimalFor r := by
  obtain ⟨m, hok, hcanonical, htotal, halphabet, haccepts⟩ :=
    minimize_canonical h.built h.pos total h.accessible
  refine ⟨m, hok, hcanonical, htotal, halphabet.trans h.alphabet_eq, ?_⟩
  intro w
  rw [haccepts, h.accepts_iff]

/-- **Minimal automata are determined by the words and the symbols.** -/
theorem MinimalFor.same (hd : d.MinimalFor r) (he : e.MinimalFor r')
    (hsymbols : r.symbols = r'.symbols) (hwords : ∀ w, r.Matches w ↔ r'.Matches w) :
    d.Same e := by
  have halphabet : d.alphabet = e.alphabet := by
    rw [hd.alphabet_eq, he.alphabet_eq, hsymbols]
  refine hd.canonical.same he.canonical halphabet ?_ ?_
  · intro w
    rw [Bool.eq_iff_iff, hd.accepts_iff, he.accepts_iff, hwords]
  · intro w
    rw [Bool.eq_iff_iff,
      hd.total.run_isSome_iff hd.canonical.built.wellFormed hd.canonical.pos w,
      he.total.run_isSome_iff he.canonical.built.wellFormed he.canonical.pos w, OverAlphabet,
      OverAlphabet, halphabet]

end Dfa

/-- The powerset construction leads to an automaton for the same expression. -/
theorem Nfa.Determinizes.recognizes {r : Regex} {d : Dfa} (h : r.toNfa.Determinizes d) :
    d.Recognizes r where
  built := h.built
  pos := h.pos
  accessible := h.accessible
  alphabet_eq := h.alphabet_eq.trans r.alphabet_toNfa
  accepts_iff w := by
    rw [h.accepts_eq, r.accepts_toNfa]

end PatternAutomata
