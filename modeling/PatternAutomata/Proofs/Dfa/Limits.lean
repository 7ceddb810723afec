import PatternAutomata.Proofs.Dfa.Layout

/-!
# Surveys under a higher limit

A survey that stays within a limit is the same within a higher one
(`TransitionSystem.survey_raise`).  So a system that is laid out within a ceiling is laid out as
the same automaton under any higher ceiling (`TransitionSystem.determinize_raise`).

## The limit counts two things

A limit bounds the points and the rounds at once.  With a higher limit every point still gets the
same number, since numbers are refused and never changed.  But there are more rounds, and more
rounds make no difference only to a survey that is finished, because then every point is settled.
That is why the survey has to be known to be finished, and not just to have used up its rounds.

The statements say `Error.Upto Error.IsLimit`: the outcome is the same, unless the lower limit was
met.  Nothing is said of what the higher limit does then, which may be anything.
-/

namespace PatternAutomata

open Error (Upto)

/-- The refusals that a higher limit may take back.  Unlike the ceilings these include two faults
of the text, nesting and the size of classes, and the capacity is not among them since it is not
configured. -/
def Error.IsLimit : Error → Prop
  | .stateLimitExceeded _ _ => True
  | .malformed (.nestedTooDeep _) _ => True
  | .malformed (.classTooLarge _) _ => True
  | _ => False

/-- What a limit lets pass, a higher limit lets pass; and where the lower one refuses, there is
nothing to prove. -/
theorem Error.upto_of_limit {α : Type} {limit limit' : Nat} (hlimit : limit ≤ limit') (n : Nat)
    {e e' : Error} {x y : Except Error α} (h : Upto IsLimit x y)
    (he : e.IsLimit := by exact True.intro) :
    Upto IsLimit (if limit < n then .error e else x) (if limit' < n then .error e' else y) := by
  by_cases hlt : limit < n
  · rw [if_pos hlt]
    exact .error he _
  · rw [if_neg hlt, if_neg fun hlt' => hlt (hlimit.trans_lt hlt')]
    exact h

variable {σ : Type} {limit limit' : Nat}

namespace Survey

variable {key : σ → List Nat} {survey : Survey σ}

theorem number_raise (hlimit : limit ≤ limit') {point : σ} {numbered : Nat × Survey σ}
    (h : survey.number key limit point = some numbered) :
    survey.number key limit' point = some numbered := by
  unfold number at h ⊢
  cases hk : survey.numbers[key point]? with
  | some n =>
      simp only [hk] at h ⊢
      exact h
  | none =>
      simp only [hk] at h ⊢
      by_cases hlt : survey.found.size < limit
      · rw [if_pos hlt] at h
        rw [if_pos (hlt.trans_le hlimit)]
        exact h
      · rw [if_neg hlt] at h
        cases h

theorem row_raise (hlimit : limit ≤ limit') {edges : List (Char × σ)}
    {done : List (Char × Nat) × Survey σ} (h : survey.row key limit edges = some done) :
    survey.row key limit' edges = some done := by
  induction edges generalizing survey done with
  | nil => exact h
  | cons e rest ih =>
      obtain ⟨c, target⟩ := e
      unfold row at h ⊢
      cases hnumber : survey.number key limit target with
      | none =>
          rw [hnumber] at h
          cases h
      | some numbered =>
          obtain ⟨n, survey₁⟩ := numbered
          cases hrest : survey₁.row key limit rest with
          | none =>
              simp only [hnumber, hrest] at h
              cases h
          | some tail =>
              simp only [hnumber, hrest] at h
              simp only [number_raise hlimit hnumber, ih hrest]
              exact h

end Survey

namespace TransitionSystem

variable {system : TransitionSystem σ}

/-- The points are settled alike, and once all of them are nothing more happens.  The hypothesis
`settled` is what makes the additional rounds idle. -/
theorem settle_raise (hlimit : limit ≤ limit') {rounds rounds' : Nat} (hrounds : rounds ≤ rounds')
    {survey done : Survey σ} (h : system.settle limit rounds survey = some done)
    (settled : done.found[done.rows.size]? = none) :
    system.settle limit' rounds' survey = some done := by
  induction rounds generalizing rounds' survey with
  | zero =>
      cases h
      cases rounds' with
      | zero => rfl
      | succ rounds' => rw [settle, settled]
  | succ rounds ih =>
      obtain ⟨more, rfl⟩ := Nat.exists_eq_add_of_le' hrounds
      rw [← Nat.add_assoc, settle]
      rw [settle] at h
      cases hpoint : survey.found[survey.rows.size]? with
      | none =>
          rw [hpoint] at h
          exact h
      | some point =>
          simp only [hpoint] at h ⊢
          cases hrow : survey.row system.key limit (system.edges point) with
          | none =>
              rw [hrow] at h
              cases h
          | some numbered =>
              rw [hrow] at h
              rw [Survey.row_raise hlimit hrow]
              exact ih (Nat.le_add_left rounds more) h

/-- **A survey that is finished stays as it is** under a higher limit.  Every survey with a result
is finished, so having a result is all that is asked. -/
theorem survey_raise (hkey : Function.Injective system.key) (hlimit : limit ≤ limit')
    {survey : Survey σ} (h : system.survey limit = some survey) :
    system.survey limit' = some survey := by
  have settled : survey.found[survey.rows.size]? = none := by
    rcases survey_spec hkey limit with ⟨survey', hsurvey, done, -⟩ | ⟨hnone, -⟩
    · rw [h] at hsurvey
      cases hsurvey
      exact Array.getElem?_eq_none (Nat.le_of_eq done.settled.symm)
    · rw [h] at hnone
      cases hnone
  unfold TransitionSystem.survey at h ⊢
  cases hnumber : Survey.empty.number system.key limit system.start with
  | none =>
      rw [hnumber] at h
      cases h
  | some numbered =>
      rw [hnumber] at h
      rw [Survey.number_raise hlimit hnumber]
      exact settle_raise hlimit hlimit h settled

/-- **A system that is laid out within a ceiling is laid out alike within a higher one.** -/
theorem determinize_raise (hkey : Function.Injective system.key) (hlimit : limit ≤ limit')
    (alphabet : Alphabet) (accepting : σ → Bool) :
    Upto Error.IsLimit (system.determinize alphabet accepting limit)
      (system.determinize alphabet accepting limit') := by
  unfold determinize
  cases h : system.survey limit with
  | none => exact .error trivial _
  | some survey =>
      rw [survey_raise hkey hlimit h]
      refine (Upto.refl _).bind fun partly => ?_
      by_cases hfull : limit < partly.numStates + 1
      · cases partly.isComplete with
        | true => exact .refl _
        | false =>
            simp only [hfull]
            exact .error trivial _
      · have hroom : ¬ limit' < partly.numStates + 1 := fun h => hfull (hlimit.trans_lt h)
        simp only [hfull, hroom, decide_false, Bool.and_false]
        exact .refl _

end TransitionSystem

end PatternAutomata
