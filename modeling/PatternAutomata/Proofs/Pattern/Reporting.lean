import PatternAutomata.Pattern.Reporting
import PatternAutomata.Proofs.Pattern.Culprits

/-!
# Reading with every report

The reader that would report the end of a pattern where an atom is wanted, and any character at
which it stops, never reports the first and reports no character but a closing parenthesis
(`Reporting.read_culprit`).

## Two readers

Some reports are written for situations that never arise: an atom is read only where there is a
character, and reading stops at a closing parenthesis or at the end.  A reader that relies on this
has no such reports.  To show that nothing is lost, the reader with all of them is written out,
and its functions are compared with those of the descent, one by one (`Reporting.reads`).  Their
outcomes are the same, with the causes as reports, and among the causes there is none of the two.

## What a report says

A cause is worded the same in both (`Report.message_ofError`), and where a pattern is malformed
the offset is that of the character to blame.  So a message can be relied on to name a character
that is there.
-/

namespace PatternAutomata

open Descent (endsTerm)

/-- A cause of refusal is worded alike, as a cause and among the reports. -/
theorem Report.message_ofError (cause : Error) : (ofError cause).message = cause.message := by
  cases cause with
  | malformed fault offset => cases fault <;> rfl
  | _ => rfl

namespace Reporting

/-- `Reports x y`: the outcome of `x` is that of `y`, with the cause as a report. -/
def Reports {α : Type} (x : Except Report α) (y : Except Error α) : Prop :=
  x = report y

namespace Reports

variable {α β : Type}

theorem ok (a : α) : Reports (.ok a) (.ok a) := rfl

theorem self (y : Except Error α) : Reports (report y) y := rfl

/-- One computation after another reports what the second does, if the first succeeds alike. -/
theorem bind {x : Except Report α} {y : Except Error α} {f : α → Except Report β}
    {g : α → Except Error β} (h : Reports x y) (hfg : ∀ a, Reports (f a) (g a)) :
    Reports (x >>= f) (y >>= g) := by
  cases h
  cases y with
  | ok a => exact hfg a
  | error cause => rfl

end Reports

variable (config : Config) (ceiling : Ceiling)

/-- Alternatives are read as by the descent, whatever number of groups is open around them.
Without a limit this number is not looked at. -/
def ReadsExpression (text : List Char) : Prop :=
  ∀ depth offset, Reports (expression config ceiling offset text)
    (Descent.expression config ceiling none depth offset text)

/-- So are more alternatives. -/
def ReadsAlternatives (text : List Char) : Prop :=
  ∀ depth before offset, Reports (alternatives config ceiling before offset text)
    (Descent.alternatives config ceiling none depth before offset text)

/-- So are the factors of an alternative. -/
def ReadsTerm (text : List Char) : Prop :=
  ∀ depth front offset, Reports (term config ceiling front offset text)
    (Descent.term config ceiling none depth front offset text)

/-- So is an atom, where there is a character.  Where there is none, only this reader has
something to report. -/
def ReadsAtom (text : List Char) : Prop :=
  ∀ depth c offset, Reports (atom config ceiling offset (c :: text))
    (Descent.atom config ceiling none depth c offset text)

variable {config ceiling} {text : List Char}

theorem readsExpression (hterm : ReadsTerm config ceiling text)
    (halternatives : ∀ v : List Char, v.length ≤ text.length →
      ReadsAlternatives config ceiling v) :
    ReadsExpression config ceiling text := by
  intro depth offset
  rw [expression.eq_def, Descent.expression.eq_def]
  refine (hterm depth none offset).bind fun first => ?_
  exact (halternatives _ first.2.le depth first.1 first.2.offset).bind fun r => .ok _

theorem readsAlternatives
    (hterm : ∀ v : List Char, v.length < text.length → ReadsTerm config ceiling v)
    (halternatives : ∀ v : List Char, v.length < text.length →
      ReadsAlternatives config ceiling v) :
    ReadsAlternatives config ceiling text := by
  intro depth before offset
  by_cases hbar : ∃ rest, text = '|' :: rest
  · obtain ⟨rest, rfl⟩ := hbar
    rw [alternatives.eq_1, Descent.alternatives.eq_1]
    refine (hterm rest (Nat.lt_succ_self _) depth none (offset + 1)).bind fun next => ?_
    refine (Reports.self (ceiling.union before next.1)).bind fun whole => ?_
    exact (halternatives _ next.2.shorter depth whole next.2.offset).bind fun r => .ok _
  · have ends : ∀ rest, text = '|' :: rest → False := fun rest h => hbar ⟨rest, h⟩
    rw [alternatives.eq_2 _ _ _ _ _ ends, Descent.alternatives.eq_2 _ _ _ _ _ _ _ ends]
    exact .ok _

theorem readsTerm
    (hatom : ∀ c v, text = c :: v → ReadsAtom config ceiling v)
    (hterm : ∀ v : List Char, v.length < text.length → ReadsTerm config ceiling v) :
    ReadsTerm config ceiling text := by
  intro depth front offset
  rw [term.eq_def, Descent.term.eq_def]
  cases text with
  | nil => exact .ok _
  | cons c text =>
      by_cases hends : endsTerm (c :: text) = true
      · simp only [hends, if_true]
        exact .ok _
      · simp only [hends, Bool.false_eq_true, if_false]
        refine (hatom c text rfl depth c offset).bind fun first => ?_
        refine (Reports.self (Descent.repetitions ceiling first.1 _ _)).bind fun factor => ?_
        have shorter : factor.2.text.length < (c :: text).length :=
          Nat.lt_of_le_of_lt factor.2.le first.2.shorter
        have more := fun joined => hterm _ shorter depth (some joined) factor.2.offset
        cases front with
        | none => exact (more factor.1).bind fun r => .ok _
        | some front =>
            refine (Reports.self (ceiling.concat front factor.1)).bind fun joined => ?_
            exact (more joined).bind fun r => .ok _

theorem readsAtom (hexpression : ReadsExpression config ceiling text) :
    ReadsAtom config ceiling text := by
  intro depth c offset
  rw [atom.eq_def, Descent.atom.eq_def]
  show Reports (if _ then _ else if _ then _ else if _ then _ else if _ then _ else _) _
  by_cases hopening : c = '('
  · rw [if_pos hopening, if_pos hopening]
    refine (hexpression (depth + 1) (offset + 1)).bind fun inner => ?_
    exact (Reports.self (inner.2.close offset)).bind fun after => .ok _
  by_cases hopen : c = '['
  · rw [if_neg hopening, if_pos hopen, if_neg hopening, if_pos hopen]
    exact (Reports.self (Descent.bracket _ offset _ text)).bind fun r => .ok _
  by_cases hdot : c = '.'
  · rw [if_neg hopening, if_neg hopen, if_pos hdot, if_neg hopening, if_neg hopen, if_pos hdot]
    exact .ok _
  by_cases hescape : c = '\\'
  · rw [if_neg hopening, if_neg hopen, if_neg hdot, if_pos hescape, if_neg hopening, if_neg hopen,
      if_neg hdot, if_pos hescape]
    cases text <;> rfl
  rw [if_neg hopening, if_neg hopen, if_neg hdot, if_neg hescape, if_neg hopening, if_neg hopen,
    if_neg hdot, if_neg hescape]
  cases Quantifier.ofChar? c <;> rfl

/-- **The functions of the reader are those of the descent**, with the causes as reports. -/
theorem reads (text : List Char) :
    ReadsExpression config ceiling text ∧ ReadsAlternatives config ceiling text ∧
      ReadsTerm config ceiling text ∧ ReadsAtom config ceiling text :=
  Descent.calls_induction (fun _ => readsExpression) (fun _ => readsAlternatives)
    (fun _ => readsTerm) (fun _ => readsAtom) text

/-- **Patterns are read alike**, with the causes of refusal as reports. -/
theorem read_eq (config : Config) (strategy : Strategy) (pattern : List Char) :
    read config strategy pattern = report (Nfa.ofPattern config strategy pattern) := by
  rw [Nfa.ofPattern_eq_descent]
  refine (Reports.self (Descent.checkNesting _ 0 _ _)).bind fun _ => ?_
  have alike : Reports (expression config ⟨config.maxNfaStates, strategy⟩ _ _) _ :=
    (reads (Body.ofPattern pattern).text).1 0 (Body.ofPattern pattern).offset
  have ends : Descent.ExpressionPoints pattern config ⟨config.maxNfaStates, strategy⟩ _ :=
    (Descent.points (Body.ofPattern pattern).text).1
  have ends := ends 0 _ (Located.ofPattern pattern)
  rw [Descent.pattern, bind_assoc]
  show Reports (expression _ _ _ _ >>= _) _
  rw [show expression _ _ _ _ = report _ from alike]
  cases hread : Descent.expression config ⟨config.maxNfaStates, strategy⟩ none 0
      (Body.ofPattern pattern).offset (Body.ofPattern pattern).text with
  | error cause => rfl
  | ok r =>
      rw [hread] at ends
      obtain ⟨whole, offset, rest, _⟩ := r
      cases rest with
      | nil => rfl
      | cons c rest =>
          obtain rfl := ends.2 c rfl
          rfl

/-- A report of an unmatched character is the cause that a parenthesis closes nothing. -/
theorem eq_of_report_eq_unmatched {α : Type} {x : Except Error α} {c : Char} {offset : Nat}
    (h : report x = .error (.unmatched c offset)) :
    c = ')' ∧ x = .error (.malformed .strayClosing offset) := by
  cases x with
  | ok a => cases h
  | error cause =>
      have h := Except.error.inj h
      cases cause with
      | malformed fault offset =>
          cases fault with
          | strayClosing =>
              cases h
              exact ⟨rfl, rfl⟩
          | _ => cases h
      | _ => cases h

theorem report_ne_unexpectedEnd {α : Type} (x : Except Error α) (offset : Nat) :
    report x ≠ .error (.unexpectedEnd offset) := by
  intro h
  cases x with
  | ok a => cases h
  | error cause =>
      have h := Except.error.inj h
      cases cause with
      | malformed fault offset => cases fault <;> cases h
      | _ => cases h

/-- **Every report blames the right character.**  The reader that relies on nothing reads patterns
as they are read, and its reports are worded as the causes of refusal.  Where a pattern is
malformed, the offset is that of the character to blame, in the pattern with its anchors.  No
character is reported as unmatched at which the reading stopped but a parenthesis that closes, and
the end of a pattern is never reported. -/
theorem read_culprit (config : Config) (strategy : Strategy) (pattern : List Char) :
    read config strategy pattern = report (Nfa.ofPattern config strategy pattern) ∧
    (∀ cause, (Report.ofError cause).message = cause.message) ∧
    (∀ fault offset, Nfa.ofPattern config strategy pattern = .error (.malformed fault offset) →
      offset < pattern.length ∧ fault.At pattern offset) ∧
    (∀ c offset, read config strategy pattern = .error (.unmatched c offset) →
      c = ')' ∧ offset < pattern.length ∧ pattern[offset]? = some ')') ∧
    ∀ offset, read config strategy pattern ≠ .error (.unexpectedEnd offset) := by
  have culprit : ∀ fault offset,
      Nfa.ofPattern config strategy pattern = .error (.malformed fault offset) →
        fault.At pattern offset := by
    intro fault offset h
    have points := Nfa.ofPattern_points config strategy pattern
    rw [h] at points
    exact points
  refine ⟨read_eq config strategy pattern, Report.message_ofError,
    fun fault offset h => ⟨(culprit fault offset h).lt, culprit fault offset h⟩, ?_, ?_⟩
  · intro c offset h
    rw [read_eq] at h
    obtain ⟨hc, hstray⟩ := eq_of_report_eq_unmatched h
    exact ⟨hc, (culprit _ offset hstray).lt, culprit _ offset hstray⟩
  · intro offset
    rw [read_eq]
    exact report_ne_unexpectedEnd _ offset

/-- A range that descends, behind an anchor and a group, and with its first end escaped. -/
theorem read_culprit_of_range :
    let pattern := ['^', '(', 'x', ')', '[', 'y', '\\', 'z', '-', 'a', ']']
    let config : Config := { dotAlphabet := ∅ }
    Nfa.ofPattern config .hash pattern = .error (.malformed (.descendingRange 'z' 'a') 6) ∧
      (Fault.descendingRange 'z' 'a').At pattern 6 := by
  intro pattern config
  have refused : Nfa.ofPattern config .hash pattern =
      .error (.malformed (.descendingRange 'z' 'a') 6) := by cbv
  exact ⟨refused, ((read_culprit config .hash pattern).2.2.1 _ _ refused).2⟩

end Reporting

end PatternAutomata
