import PatternAutomata.Powerset

/-!
# Systems that represent each other

The points of a system may stand for the points of another.  If they have the edges and the keys
of the points that they stand for (`TransitionSystem.Represents`), a survey of the one is a survey
of the other, step by step, and both are laid out as the same automaton, number by number
(`TransitionSystem.Represents.determinize_eq`).

This is how the powerset construction with stored sets is brought back to the one with sorted
sets: a stored set stands for the set of its states.  The two systems have points of different
types, so their surveys cannot be equal; `Survey.map` tells one in the terms of the other.

Nothing is asked of the points themselves.  Two points may stand for the same one, as stored sets
of different layout do, and a survey will not find both, since it tells points apart by their
keys.  Nor do the keys have to tell different points apart, because both surveys are misled in the
same way if they do not.
-/

namespace PatternAutomata

variable {σ τ : Type}

/-- What is known, told of the points that are stood for.  The numbers and rows stay as they are. -/
def Survey.map (f : σ → τ) (survey : Survey σ) : Survey τ :=
  ⟨survey.found.map f, survey.numbers, survey.rows⟩

/-- `system.Represents f other`: every point `p` of `system` stands for the point `f p` of
`other`.  The edges have to come in the same order, since numbers depend on it. -/
structure TransitionSystem.Represents (system : TransitionSystem σ) (f : σ → τ)
    (other : TransitionSystem τ) : Prop where
  start_eq : f system.start = other.start
  edges_eq : ∀ p, (system.edges p).map (fun e => (e.1, f e.2)) = other.edges (f p)
  key_eq : ∀ p, system.key p = other.key (f p)

namespace TransitionSystem.Represents

variable {system : TransitionSystem σ} {f : σ → τ} {other : TransitionSystem τ}

theorem number_eq (rep : system.Represents f other) (limit : Nat) (survey : Survey σ) (p : σ) :
    (survey.map f).number other.key limit (f p) =
      (survey.number system.key limit p).map fun (n, survey) => (n, survey.map f) := by
  unfold Survey.number
  rw [← rep.key_eq]
  simp only [Survey.map, Array.size_map]
  cases survey.numbers[system.key p]? with
  | some n => rfl
  | none =>
      by_cases hlt : survey.found.size < limit
      · simp [hlt]
      · simp [hlt]

theorem row_eq (rep : system.Represents f other) (limit : Nat) (edges : List (Char × σ))
    (survey : Survey σ) :
    (survey.map f).row other.key limit (edges.map fun e => (e.1, f e.2)) =
      (survey.row system.key limit edges).map fun (row, survey) => (row, survey.map f) := by
  induction edges generalizing survey with
  | nil => rfl
  | cons e rest ih =>
      obtain ⟨c, target⟩ := e
      rw [List.map_cons, Survey.row, Survey.row, rep.number_eq]
      cases survey.number system.key limit target with
      | none => rfl
      | some numbered =>
          obtain ⟨n, survey⟩ := numbered
          simp only [Option.map_some, ih]
          cases survey.row system.key limit rest <;> rfl

theorem settle_eq (rep : system.Represents f other) (limit rounds : Nat) (survey : Survey σ) :
    other.settle limit rounds (survey.map f) =
      (system.settle limit rounds survey).map (Survey.map f) := by
  induction rounds generalizing survey with
  | zero => rfl
  | succ rounds ih =>
      have hnext : (survey.map f).found[(survey.map f).rows.size]? =
          survey.found[survey.rows.size]?.map f := Array.getElem?_map
      rw [settle, settle, hnext]
      cases survey.found[survey.rows.size]? with
      | none => rfl
      | some point =>
          simp only [Option.map_some]
          rw [← rep.edges_eq, rep.row_eq]
          cases survey.row system.key limit (system.edges point) with
          | none => rfl
          | some done =>
              obtain ⟨row, survey⟩ := done
              exact ih { survey with rows := survey.rows.push row }

/-- **Surveys correspond**, those that leave the limit among them. -/
theorem survey_eq (rep : system.Represents f other) (limit : Nat) :
    other.survey limit = (system.survey limit).map (Survey.map f) := by
  have hempty : (Survey.empty : Survey τ) = (Survey.empty : Survey σ).map f := by
    simp [Survey.empty, Survey.map]
  rw [survey, survey, hempty, ← rep.start_eq, rep.number_eq]
  cases Survey.empty.number system.key limit system.start with
  | none => rfl
  | some numbered => exact rep.settle_eq limit limit numbered.2

theorem keys_eq (rep : system.Represents f other) (found : Array σ) :
    other.keys (found.map f) = system.keys found := by
  rw [keys, keys, Array.toList_map, List.zipIdx_map, List.map_map]
  congr 2
  funext entry
  obtain ⟨point, n⟩ := entry
  simp [rep.key_eq]

/-- **The systems are laid out as the same automaton**, if their points accept alike. -/
theorem determinize_eq (rep : system.Represents f other) {accepting : σ → Bool}
    {accepting' : τ → Bool} (haccepting : ∀ p, accepting p = accepting' (f p))
    (alphabet : Alphabet) (limit : Nat) :
    system.determinize alphabet accepting limit = other.determinize alphabet accepting' limit := by
  have hcomp : accepting = accepting' ∘ f := funext haccepting
  rw [determinize, determinize, rep.survey_eq]
  cases system.survey limit with
  | none => rfl
  | some survey =>
      simp only [Option.map_some, Survey.map, rep.keys_eq, Array.toList_map, List.map_map,
        hcomp]

end TransitionSystem.Represents

end PatternAutomata
