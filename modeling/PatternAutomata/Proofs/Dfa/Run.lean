import Mathlib.Data.Option.Basic
import PatternAutomata.Dfa.Run

/-!
# Runs of a deterministic automaton

A word leads from a state to at most one state, and `Dfa.runFrom` is this state.  Everything that
is said about the language of a deterministic automaton is said through it: by
`Dfa.acceptsFrom_iff` a word is accepted iff it leads to an accepting state, and by
`Dfa.runFrom_append` a run can be cut where it suits.

A run is not the same as acceptance without the last question.  Two automata may accept the same
words while a word has a run in one of them and none in the other; the difference is a state from
which nothing is accepted.  So canonical automata are compared by both, and this is why runs have
an `Option` in their type rather than a state for words that lead nowhere.

`Dfa.Separates` is what minimality is about: a word that one of two states accepts and the other
does not.
-/

namespace PatternAutomata.Dfa

/-- The state that a word leads to from a state, if no edge is missing on the way. -/
def runFrom (dfa : Dfa) (state : Nat) : List Char → Option Nat
  | [] => some state
  | c :: rest => (dfa.transition state c).bind fun next => dfa.runFrom next rest

/-- The state that a word leads to from the start state. -/
def run (dfa : Dfa) (w : List Char) : Option Nat :=
  dfa.runFrom dfa.start w

@[simp] theorem runFrom_nil (dfa : Dfa) (s : Nat) : dfa.runFrom s [] = some s := rfl

theorem runFrom_cons (dfa : Dfa) (s : Nat) (c : Char) (rest : List Char) :
    dfa.runFrom s (c :: rest) =
      (dfa.transition s c).bind fun next => dfa.runFrom next rest := rfl

@[simp] theorem run_nil (dfa : Dfa) : dfa.run [] = some dfa.start := rfl

/-- A run over two words is a run over the first and, from where it ends, over the
second. -/
theorem runFrom_append (dfa : Dfa) (s : Nat) (v w : List Char) :
    dfa.runFrom s (v ++ w) = (dfa.runFrom s v).bind fun t => dfa.runFrom t w := by
  induction v generalizing s with
  | nil => rfl
  | cons c v ih =>
      rw [List.cons_append, runFrom_cons, runFrom_cons, Option.bind_assoc]
      congr 1
      funext t
      exact ih t

theorem runFrom_concat (dfa : Dfa) (s : Nat) (w : List Char) (c : Char) :
    dfa.runFrom s (w ++ [c]) = (dfa.runFrom s w).bind fun t => dfa.transition t c := by
  rw [runFrom_append]
  congr 1
  funext t
  rw [runFrom_cons]
  cases dfa.transition t c <;> rfl

theorem run_append (dfa : Dfa) (v w : List Char) :
    dfa.run (v ++ w) = (dfa.run v).bind fun t => dfa.runFrom t w :=
  dfa.runFrom_append dfa.start v w

theorem run_concat (dfa : Dfa) (w : List Char) (c : Char) :
    dfa.run (w ++ [c]) = (dfa.run w).bind fun t => dfa.transition t c :=
  dfa.runFrom_concat dfa.start w c

@[simp] theorem transition_setMapping (dfa : Dfa) (mapping : Std.ExtTreeMap Nat (List Nat))
    (s : Nat) (c : Char) : (dfa.setMapping mapping).transition s c = dfa.transition s c := rfl

/-- What the states stand for has no bearing on runs.  So a construction may add it at the end,
after all has been said about its edges. -/
@[simp] theorem runFrom_setMapping (dfa : Dfa) (mapping : Std.ExtTreeMap Nat (List Nat))
    (s : Nat) (w : List Char) : (dfa.setMapping mapping).runFrom s w = dfa.runFrom s w := by
  induction w generalizing s with
  | nil => rfl
  | cons c w ih =>
      rw [runFrom_cons, runFrom_cons]
      congr 1
      funext t
      exact ih t

@[simp] theorem run_setMapping (dfa : Dfa) (mapping : Std.ExtTreeMap Nat (List Nat))
    (w : List Char) : (dfa.setMapping mapping).run w = dfa.run w :=
  dfa.runFrom_setMapping mapping dfa.start w

@[simp] theorem acceptsFrom_setMapping (dfa : Dfa) (mapping : Std.ExtTreeMap Nat (List Nat))
    (s : Nat) (w : List Char) : (dfa.setMapping mapping).acceptsFrom s w = dfa.acceptsFrom s w := by
  induction w generalizing s with
  | nil => rfl
  | cons c w ih =>
      rw [acceptsFrom_cons, acceptsFrom_cons, transition_setMapping]
      cases dfa.transition s c with
      | none => rfl
      | some t => exact ih t

@[simp] theorem accepts_setMapping (dfa : Dfa) (mapping : Std.ExtTreeMap Nat (List Nat))
    (w : List Char) : (dfa.setMapping mapping).accepts w = dfa.accepts w :=
  dfa.acceptsFrom_setMapping mapping dfa.start w

/-- **A word is accepted from a state iff it leads from there to an accepting state.** -/
theorem acceptsFrom_iff {dfa : Dfa} {s : Nat} {w : List Char} :
    dfa.acceptsFrom s w = true ↔
      ∃ t, dfa.runFrom s w = some t ∧ dfa.isAccepting t = true := by
  induction w generalizing s with
  | nil => simp
  | cons c w ih =>
      rw [acceptsFrom_cons, runFrom_cons]
      cases dfa.transition s c with
      | none => simp
      | some next => simpa using ih

/-- What is accepted after a word that leads somewhere is what is accepted from there. -/
theorem acceptsFrom_append {dfa : Dfa} {s t : Nat} {v : List Char}
    (h : dfa.runFrom s v = some t) (w : List Char) :
    dfa.acceptsFrom s (v ++ w) = dfa.acceptsFrom t w := by
  rw [Bool.eq_iff_iff, acceptsFrom_iff, acceptsFrom_iff, runFrom_append, h]
  rfl

theorem accepts_append {dfa : Dfa} {t : Nat} {v : List Char}
    (h : dfa.run v = some t) (w : List Char) :
    dfa.accepts (v ++ w) = dfa.acceptsFrom t w :=
  acceptsFrom_append h w

/-- Nothing is accepted over a word that leads nowhere. -/
theorem accepts_append_of_run_eq_none {dfa : Dfa} {v : List Char}
    (h : dfa.run v = none) (w : List Char) : dfa.accepts (v ++ w) = false := by
  rw [Bool.eq_false_iff, accepts, Ne, acceptsFrom_iff]
  rintro ⟨t, ht, -⟩
  rw [runFrom_append, show dfa.runFrom dfa.start v = none from h] at ht
  cases ht

/-- A word that one of two states accepts and the other does not.  A missing edge counts as
rejection.  The word need not be over the alphabet by definition, but in an automaton that is well
formed it always is. -/
def Separates (dfa : Dfa) (s t : Nat) (w : List Char) : Prop :=
  dfa.acceptsFrom s w ≠ dfa.acceptsFrom t w

/-- Words that hold symbols of the alphabet only. -/
def OverAlphabet (dfa : Dfa) (w : List Char) : Prop :=
  ∀ c ∈ w, c ∈ dfa.alphabet

end PatternAutomata.Dfa
