import PatternAutomata.Powerset
import PatternAutomata.Proofs.Dfa.Chart
import PatternAutomata.Proofs.Error

/-!
# Laying out a system

A system is laid out in two steps: the points found are charted, and the edges that are missing
then are sent to a dead state.  Every state of the result stands for a point, or for no point at
all.

## Two cases, gone through once

Whether a dead state is needed makes two cases of everything that is said of the result.
`TransitionSystem.LaidOut` is written so that it is true of both, with the chart and the completed
automaton side by side, and `TransitionSystem.determinize_cases` goes through the cases once.
What is said afterwards, of runs, of numbers and of what the states stand for, is derived from
`LaidOut` without asking again.

## Why there is no automaton

There are two ways to meet the ceiling: the survey may meet a point too many, or all points fit
and no state is left for the missing edges.  `TransitionSystem.Overflows` describes both by the
points that can be met, without mentioning a survey.  This is what makes the ceiling exact: a
bound that is met has been met for a reason that can be counted.
-/

namespace PatternAutomata

/-! ### Runs after completion -/

/-- Where a run ends once the missing edges lead to a new state: where it ended before, or in the
new state if it was stuck before.  The new state is never left, so there is no third case. -/
theorem Dfa.Sunk.run_cases {dfa whole : Dfa} (h : Sunk dfa whole) {w : List Char} {t : Nat}
    (hw : whole.run w = some t) :
    dfa.run w = some t ∨ t = dfa.numStates ∧ dfa.run w = none := by
  induction w using List.reverseRecOn generalizing t with
  | nil =>
      rw [run_nil, h.start_eq] at hw
      exact .inl hw
  | append_singleton w c ih =>
      rw [run_concat, Option.bind_eq_some_iff] at hw
      obtain ⟨r, hr, hstep⟩ := hw
      rw [h.transition_iff] at hstep
      rcases ih hr with hrun | ⟨rfl, hrun⟩
      · rw [run_concat, hrun]
        exact hstep.imp id fun ⟨_, _, hnone, ht⟩ => ⟨ht, hnone⟩
      · rw [transition_eq_none_of_le le_rfl] at hstep
        refine .inr ⟨(hstep.resolve_left nofun).2.2.2, ?_⟩
        rw [run_concat, hrun]
        rfl

@[simp] theorem Dfa.numStates_setMapping (dfa : Dfa) (mapping : Std.ExtTreeMap Nat (List Nat)) :
    (dfa.setMapping mapping).numStates = dfa.numStates := rfl

namespace TransitionSystem

variable {σ : Type} {system : TransitionSystem σ} {survey : Survey σ} {alphabet : Alphabet}
  {accepting : σ → Bool} {partly d : Dfa}

/-! ### Keys -/

/-- **The keys by number**: a number that is given has the key of its point. -/
theorem getElem?_keys (system : TransitionSystem σ) (found : Array σ) (n : Nat) :
    (system.keys found)[n]? = found[n]?.map system.key :=
  (getElem?_ofList_zipIdx system.key found.toList n).trans (by rw [Array.getElem?_toList])

/-! ### The automaton of a system -/

/-- `Keyed system survey partly d mapping`: the states that stand for points are mapped to the
keys of these, and the dead state, if there is one, to the empty key. -/
def Keyed (system : TransitionSystem σ) (survey : Survey σ) (partly d : Dfa)
    (mapping : Std.ExtTreeMap Nat (List Nat)) : Prop :=
  ∀ (s : Nat) (list : List Nat), mapping[s]? = some list ↔
    (∃ p, survey.found[s]? = some p ∧ list = system.key p) ∨
      (s = partly.numStates ∧ s + 1 = d.numStates ∧ list = [])

/-- `LaidOut system survey partly alphabet accepting d`: the survey is charted by `partly`, and
`d` is `partly`, made complete by a dead state if need be.  Runs are compared in both directions,
and so nothing has to be known about which of the two it was. -/
structure LaidOut (system : TransitionSystem σ) (survey : Survey σ) (alphabet : Alphabet)
    (accepting : σ → Bool) (partly d : Dfa) : Prop where
  done : Surveyed system survey
  chart : Charted system survey alphabet accepting partly
  built : d.Built
  start_eq : d.start = 0
  total : d.Total
  accessible : d.Accessible
  alphabet_eq : d.alphabet = alphabet
  numStates_cases : d.numStates = partly.numStates ∨ d.numStates = partly.numStates + 1
  isAccepting_eq : ∀ s, d.isAccepting s = partly.isAccepting s
  accepts_eq : ∀ w, d.accepts w = partly.accepts w
  run_of_run : ∀ {w s}, partly.run w = some s → d.run w = some s
  run_cases : ∀ {w t}, d.run w = some t →
    partly.run w = some t ∨ t = partly.numStates ∧ partly.run w = none
  mapping_eq : ∃ mapping, d.mapping = some mapping ∧ Keyed system survey partly d mapping

namespace LaidOut

/-- An automaton that was complete already. -/
theorem of_total (done : Surveyed system survey)
    (chart : Charted system survey alphabet accepting partly) (total : partly.Total) :
    LaidOut system survey alphabet accepting partly
      (partly.setMapping (system.keys survey.found)) where
  done := done
  chart := chart
  built := chart.built.setMapping _
  start_eq := chart.start_eq
  total := total
  accessible s hs := by
    obtain ⟨w, hw⟩ := chart.accessible s hs
    exact ⟨w, (partly.run_setMapping _ w).trans hw⟩
  alphabet_eq := chart.alphabet_eq
  numStates_cases := .inl rfl
  isAccepting_eq _ := rfl
  accepts_eq w := partly.accepts_setMapping _ w
  run_of_run hw := (partly.run_setMapping _ _).trans hw
  run_cases hw := .inl ((partly.run_setMapping _ _).symm.trans hw)
  mapping_eq := by
    refine ⟨_, rfl, ?_⟩
    intro s list
    rw [getElem?_keys, Option.map_eq_some_iff, Dfa.numStates_setMapping]
    constructor
    · rintro ⟨p, hp, rfl⟩
      exact .inl ⟨p, hp, rfl⟩
    · rintro (⟨p, hp, rfl⟩ | ⟨rfl, hlast, -⟩)
      · exact ⟨p, hp, rfl⟩
      · omega

/-- An automaton whose missing edges are sent to a dead state. -/
theorem of_sunk (done : Surveyed system survey)
    (chart : Charted system survey alphabet accepting partly) (total : ¬ partly.Total)
    {whole : Dfa} (sunk : Dfa.Sunk partly whole) :
    LaidOut system survey alphabet accepting partly
      (whole.setMapping ((system.keys survey.found).insert partly.numStates [])) where
  done := done
  chart := chart
  built := (sunk.built chart.built).setMapping _
  start_eq := sunk.start_eq.trans chart.start_eq
  total := sunk.total
  accessible s hs := by
    obtain ⟨w, hw⟩ := sunk.accessible total chart.accessible s hs
    exact ⟨w, (whole.run_setMapping _ w).trans hw⟩
  alphabet_eq := sunk.alphabet_eq.trans chart.alphabet_eq
  numStates_cases := .inr sunk.numStates_eq
  isAccepting_eq := sunk.isAccepting_eq
  accepts_eq w := (whole.accepts_setMapping _ w).trans (sunk.accepts_eq w)
  run_of_run hw := (whole.run_setMapping _ _).trans (sunk.run_of_run hw)
  run_cases hw := sunk.run_cases ((whole.run_setMapping _ _).symm.trans hw)
  mapping_eq := by
    refine ⟨_, rfl, ?_⟩
    intro s list
    rw [Dfa.numStates_setMapping, sunk.numStates_eq]
    simp only [Std.ExtTreeMap.getElem?_insert, Nat.compare_eq_eq, getElem?_keys]
    by_cases hs : partly.numStates = s
    · have hnone : survey.found[s]? = none :=
        Array.getElem?_eq_none (Nat.le_of_eq (chart.numStates_eq.symm.trans hs))
      simp [hs, hnone, eq_comm]
    · have hne : ¬ s = partly.numStates := fun h => hs h.symm
      simp [hs, hne, eq_comm]

theorem pos (laid : LaidOut system survey alphabet accepting partly d) : 0 < d.numStates := by
  have := laid.chart.pos laid.done
  rcases laid.numStates_cases with h | h <;> omega

/-- The states are mapped, and nothing else is. -/
theorem lt_iff (laid : LaidOut system survey alphabet accepting partly d)
    {mapping : Std.ExtTreeMap Nat (List Nat)} (keyed : Keyed system survey partly d mapping)
    (s : Nat) : s < d.numStates ↔ ∃ list, mapping[s]? = some list := by
  have hsize := laid.chart.numStates_eq
  have hcases := laid.numStates_cases
  constructor
  · intro hs
    by_cases hfound : s < survey.found.size
    · exact ⟨_, (keyed s _).2 (.inl ⟨_, Array.getElem?_eq_getElem hfound, rfl⟩)⟩
    · exact ⟨[], (keyed s []).2 (.inr ⟨by omega, by omega, rfl⟩)⟩
  · rintro ⟨list, hlist⟩
    rcases (keyed s list).1 hlist with ⟨p, hp, -⟩ | ⟨-, hlast, -⟩
    · have := (Array.getElem?_eq_some_iff.1 hp).1
      omega
    · omega

/-- The states that stand for points are numbered breadth first.  The dead state is excluded, as
it comes last whatever leads to it. -/
theorem breadthFirst (laid : LaidOut system survey alphabet accepting partly d) {s t : Nat}
    (hst : s < t) (ht : t ≠ partly.numStates) {w : List Char} (hw : d.run w = some t) :
    ∃ v, d.run v = some s ∧ List.Shortlex (· < ·) v w := by
  have hpartly : partly.run w = some t := (laid.run_cases hw).resolve_right fun h => ht h.1
  obtain ⟨v, hv, hvw⟩ := laid.chart.breadthFirst s t hst w hpartly
  exact ⟨v, laid.run_of_run hv, hvw⟩

end LaidOut

/-- A point of the survey has an edge missing if a state of its chart has. -/
theorem Charted.exists_stuck (chart : Charted system survey alphabet accepting partly)
    (done : Surveyed system survey) (total : ¬ partly.Total) :
    ∃ p, system.Reachable p ∧ ∃ c ∈ alphabet, ∀ q, (c, q) ∉ system.edges p := by
  unfold Dfa.Total at total
  push Not at total
  obtain ⟨s, hs, c, hc, hnone⟩ := total
  rw [chart.numStates_eq] at hs
  rw [chart.alphabet_eq] at hc
  have hp := Array.getElem?_eq_getElem hs
  refine ⟨_, done.reachable s _ hp, c, hc, fun q he => ?_⟩
  obtain ⟨row, -, hnumbered⟩ := done.row_of_found hp
  obtain ⟨t, ht, -⟩ := hnumbered.exists_number he
  exact hnone t ((chart.transition_iff s c t).2 ⟨_, q, hp, ht, he⟩)

/-- Why a system is not laid out: it has more points than the ceiling allows, or it has as many
and an edge is missing, so that no state is left for where it leads.  In the second case the
points are exactly as many as the ceiling. -/
def Overflows (system : TransitionSystem σ) (alphabet : Alphabet) (limit : Nat) : Prop :=
  system.Crowded limit ∨
    (∀ n < limit, system.Crowded n) ∧
      ∃ p, system.Reachable p ∧ ∃ c ∈ alphabet, ∀ q, (c, q) ∉ system.edges p

/-- **A system is laid out or meets the ceiling**, and it needs one state more than the ceiling
allows when it stops.  The two cases exclude one another, as a system that is laid out has no more
points than states. -/
theorem determinize_cases (hkey : Function.Injective system.key)
    (ascending : system.Ascending alphabet) (accepting : σ → Bool) (limit : Nat) :
    (∃ d survey partly, system.determinize alphabet accepting limit = .ok d ∧
      LaidOut system survey alphabet accepting partly d ∧ d.numStates ≤ limit) ∨
    (system.determinize alphabet accepting limit =
      .error (.stateLimitExceeded (limit + 1) limit) ∧ system.Overflows alphabet limit) := by
  unfold determinize
  rcases survey_spec hkey limit with ⟨survey, hsurvey, done, hle⟩ | ⟨hsurvey, crowded⟩
  · obtain ⟨partly, hok, chart⟩ := done.chart_ok ascending accepting
    have hsize := chart.numStates_eq
    rw [hsurvey]
    simp only [hok, Error.ok_bind]
    rcases partly.complete_ok with ⟨total, hcomplete⟩ | ⟨total, whole, hcomplete, sunk⟩
    · rw [(Dfa.isComplete_iff chart.built.wellFormed).2 total, hcomplete]
      refine .inl ⟨_, survey, partly, rfl, .of_total done chart total, ?_⟩
      exact hsize.trans_le hle
    · have hmissing : partly.isComplete = false :=
        Bool.eq_false_iff.2 fun h => total ((Dfa.isComplete_iff chart.built.wellFormed).1 h)
      rw [hmissing]
      by_cases hfull : limit < partly.numStates + 1
      · have hlimit : partly.numStates = limit := by omega
        rw [hlimit]
        simp only [Nat.lt_succ_self]
        have hfound : survey.found.size = limit := hsize.symm.trans hlimit
        exact .inr ⟨rfl, .inr ⟨fun n hn => done.crowded (hn.trans_eq hfound.symm),
          chart.exists_stuck done total⟩⟩
      · simp only [hfull, hcomplete]
        refine .inl ⟨_, survey, partly, rfl, .of_sunk done chart total sunk, ?_⟩
        exact sunk.numStates_eq.trans_le (Nat.not_lt.1 hfull)
  · rw [hsurvey]
    exact .inr ⟨rfl, .inl crowded⟩

end TransitionSystem

end PatternAutomata
