import PatternAutomata.Compile
import PatternAutomata.Proofs.Pattern.InStep
import PatternAutomata.Proofs.Powerset

/-!
# What a strategy decides

The way of holding sets of states decides how many states there may be.  Everything else comes out
the same: a result, and the cause of a refusal, with every way that has the capacity for getting
there (`strategies_agree`).

## Up to capacity

Hashed sets have every capacity, so each strategy is held against them.  A construction with
another strategy goes in step with the one with hashed sets until it is refused for its capacity,
and `Error.Upto` says just that.  For the reading of patterns this is an instance of readings in
step (`Strategy.inStep_hash`).  In the powerset construction the capacity is not asked again, and
the sets of any strategy give the same automaton.

## Guesses

Without a configured strategy one is guessed from the pattern.  If the guess is dense sets and
they are too small, the construction is begun again with hashed ones.  So the outcome is that of
hashed sets in either case, and an error that the guess would have reported is never seen
(`Dfa.unminimized_guess`).
-/

namespace PatternAutomata

open Error (Upto)

/-! ### Capacity -/

namespace Strategy

variable (strategy : Strategy)

/-- The refusals of a strategy that has no capacity left.  Hashed sets have none. -/
def Full : Error → Prop
  | .capacityExceeded capacity _ => strategy.maxStates? = some capacity
  | _ => False

/-- Dense sets make no difference but for their capacity. -/
theorem cases_of_upto_bit {α : Type} {x y : Except Error α} (h : Upto bit.Full x y) :
    x = y ∨ ∃ requested, x = .error (.capacityExceeded DenseSet.capacity requested) := by
  rcases h with heq | ⟨e, rfl, full⟩
  · exact .inl heq
  · cases e with
    | capacityExceeded capacity requested =>
        cases full
        exact .inr ⟨requested, rfl⟩
    | malformed fault offset => exact absurd full id
    | stateLimitExceeded states max => exact absurd full id
    | breached breach => exact absurd full id

/-- A strategy checks a number of states alike, up to capacity; with hashed sets every number
passes. -/
theorem check_upto (requested : Nat) :
    Upto strategy.Full (strategy.check requested) (hash.check requested) := by
  unfold check
  cases h : strategy.maxStates? with
  | none => exact .refl _
  | some capacity =>
      by_cases hle : requested ≤ capacity
      · exact .inl (if_pos hle)
      · exact .inr ⟨_, if_neg hle, h⟩

theorem checkAll_upto (requests : List Nat) :
    Upto strategy.Full (strategy.checkAll requests) (hash.checkAll requests) := by
  induction requests with
  | nil => exact .refl _
  | cons requested rest ih =>
      rw [checkAll_cons, checkAll_cons]
      exact (strategy.check_upto requested).bind fun _ => ih

end Strategy

/-- Readings with a strategy and with hashed sets go in step, up to capacity. -/
theorem Strategy.inStep_hash (config : Config) (strategy : Strategy) :
    InStep strategy.Full config strategy config .hash where
  dot_eq := rfl
  members_upto _ _ := .refl _
  depth_upto _ _ := .refl _
  ceilings := ⟨fun _ => .refl _, strategy.checkAll_upto⟩

variable (config : Config) (strategy : Strategy) (pattern : List Char)

/-- **Patterns are read alike**, up to capacity. -/
theorem Regex.parse_upto :
    Upto strategy.Full (Regex.parse config strategy pattern) (Regex.parse config .hash pattern) :=
  (strategy.inStep_hash config).parse_upto pattern

/-- **Patterns have the same automaton**, up to capacity. -/
theorem Dfa.unminimizedWith_upto :
    Upto strategy.Full (unminimizedWith config strategy pattern)
      (unminimizedWith config .hash pattern) := by
  refine ((Regex.parse_upto config strategy pattern).bind fun _ => .refl _).bind fun nfa => ?_
  rw [Strategy.determinize_eq, Strategy.determinize_eq]
  exact .refl _

/-! ### Guesses -/

namespace Dfa

/-- A guess that runs out of capacity is taken back, so it makes no difference. -/
theorem unminimized_guess :
    unminimized { config with strategy := none } pattern =
      unminimizedWith config .hash pattern := by
  have huniform : ∀ strategy, unminimizedWith { config with strategy := none } strategy pattern =
      unminimizedWith config strategy pattern := fun _ => rfl
  rw [unminimized]
  simp only [huniform]
  generalize Config.strategyFor _ pattern = guess
  rcases unminimizedWith_upto config guess pattern with heq | ⟨e, he, full⟩
  · rw [heq]
    split
    · rfl
    · rfl
  · rw [he]
    cases e with
    | capacityExceeded capacity requested => rfl
    | malformed fault offset => exact absurd full id
    | stateLimitExceeded states max => exact absurd full id
    | breached breach => exact absurd full id

/-- The automaton before it is minimized is made with the configured strategy, and with hashed
sets if there is none. -/
theorem unminimized_eq :
    unminimized config pattern =
      unminimizedWith config (config.strategy.getD .hash) pattern := by
  cases h : config.strategy with
  | none =>
      have heq : config = { config with strategy := none } := by rw [← h]
      calc unminimized config pattern
          = unminimized { config with strategy := none } pattern := by rw [← heq]
        _ = unminimizedWith config .hash pattern := unminimized_guess config pattern
  | some strategy =>
      rw [unminimized, Config.strategyFor, h]
      rfl

/-- Minimal automata differ no more than those that they are made from.  The direct way does not
depend on a strategy. -/
theorem ofPattern_upto {E : Error → Prop} {chosen chosen' : Option Strategy}
    (h : Upto E (unminimized { config with strategy := chosen } pattern)
      (unminimized { config with strategy := chosen' } pattern)) :
    Upto E (ofPattern { config with strategy := chosen } pattern)
      (ofPattern { config with strategy := chosen' } pattern) := by
  have hdirect : ∀ chosen, direct? { config with strategy := chosen } pattern =
      direct? config pattern := fun _ => rfl
  have hgeneral : Upto E (general { config with strategy := chosen } pattern)
      (general { config with strategy := chosen' } pattern) := h.bind fun _ => .refl _
  rw [ofPattern, ofPattern]
  simp only [hdirect]
  cases config.enableFastPaths with
  | false => exact hgeneral
  | true =>
      cases direct? config pattern with
      | none => exact hgeneral
      | some d => exact .refl _

end Dfa

/-- **A guess makes no difference, and a configured strategy none but capacity.**  Without a
configured strategy a pattern has the outcome that it has with hashed sets, whatever is expected
of it, and with dense sets it has the same outcome or exceeds their capacity.  Refusals are
outcomes as well, so the causes agree with everything they say. -/
theorem strategies_agree :
    let auto : Config := { config with strategy := none }
    let hash : Config := { config with strategy := some .hash }
    let bit : Config := { config with strategy := some .bit }
    Dfa.unminimized auto pattern = Dfa.unminimized hash pattern ∧
    (Dfa.unminimized bit pattern = Dfa.unminimized hash pattern ∨
      ∃ requested, Dfa.unminimized bit pattern =
        .error (.capacityExceeded DenseSet.capacity requested)) ∧
    Dfa.ofPattern auto pattern = Dfa.ofPattern hash pattern ∧
    (Dfa.ofPattern bit pattern = Dfa.ofPattern hash pattern ∨
      ∃ requested, Dfa.ofPattern bit pattern =
        .error (.capacityExceeded DenseSet.capacity requested)) := by
  intro auto hash bit
  have hguess : Dfa.unminimized auto pattern = Dfa.unminimized hash pattern :=
    Dfa.unminimized_guess config pattern
  have hbit : Upto Strategy.bit.Full (Dfa.unminimized bit pattern)
      (Dfa.unminimized hash pattern) := Dfa.unminimizedWith_upto config .bit pattern
  have hguess' : Upto (fun _ => False) (Dfa.ofPattern auto pattern) (Dfa.ofPattern hash pattern) :=
    Dfa.ofPattern_upto config pattern (.inl hguess)
  have hbit' : Upto Strategy.bit.Full (Dfa.ofPattern bit pattern) (Dfa.ofPattern hash pattern) :=
    Dfa.ofPattern_upto config pattern hbit
  refine ⟨hguess, Strategy.cases_of_upto_bit hbit, hguess'.resolve_right ?_,
    Strategy.cases_of_upto_bit hbit'⟩
  rintro ⟨_, _, hfalse⟩
  exact hfalse

end PatternAutomata
