import PatternAutomata.Proofs.Guarded.Compile
import PatternAutomata.Proofs.Pattern.Refusals
import PatternAutomata.Proofs.Strategy

/-!
# Orderly computations

Patterns are refused for their text, for a configured ceiling, or for a capacity that was asked
for.  The rules of automata are checked all along the way, and so is that what is looked up is
there; none of these checks ever fails.  `compile_orderly` says so of every way to an automaton,
of the powerset construction and of minimization.

## A check that never fails can be left out

A computation is held against one that makes every check: of states that an edge names, of second
targets, of blocks that mix, of blocks without a number, and of every index.  That the two come
out alike is what it means that no check fails (`Orderly.agrees`).  The other fields follow from
this and from what a computation may be refused for, but they are what a caller wants to know, and
are stated for themselves.

## Capacity

Dense sets hold only so many states.  With dense sets asked for, running out of capacity is a
refusal like others.  Where dense sets were only a guess, they are given up for hashed ones, and
where hashed sets are used, there is no capacity.  So the cause that the capacity is exceeded is
seen just where dense sets are configured; for minimal nondeterministic automata, which are always
made with hashed sets, it is never seen.
-/

namespace PatternAutomata

open Error (RefusedOnly)

/-- `Orderly full guarded x`: the computation `x` comes out as `guarded` does, which makes every
check there is; nothing is looked up that is not there; no rule of an automaton would be broken;
and the capacity runs out only if `full` holds. -/
structure Orderly {α : Type} (full : Prop) (guarded : Guarded α) (x : Except Error α) : Prop where
  agrees : guarded = Guarded.lift x
  in_range : guarded ≠ .error .outOfRange
  unbroken : ∀ breach, x ≠ .error (.breached breach)
  capacity : ∀ capacity requested, x = .error (.capacityExceeded capacity requested) → full

/-- What comes out as with guards and is refused only as a strategy may refuse is orderly. -/
theorem Orderly.of_refused {α : Type} {full : Prop} {guarded : Guarded α} {x : Except Error α}
    {strategy : Strategy} (agrees : guarded = Guarded.lift x)
    (refused : RefusedOnly strategy.MayRefuse x) (hfull : strategy = .bit → full) :
    Orderly full guarded x where
  agrees := agrees
  in_range := agrees ▸ Guarded.lift_ne_outOfRange x
  unbroken _ h := refused _ h
  capacity _ _ h := hfull (refused _ h)

/-! ### What may be refused -/

variable (config : Config) (strategy : Strategy) (pattern input : List Char)

namespace Nfa

theorem refused_ofPattern :
    RefusedOnly strategy.MayRefuse (Nfa.ofPattern config strategy pattern) :=
  (Regex.refused_parse config strategy pattern).bind fun _ _ => .ok _

/-- The powerset construction is refused for the ceiling only, so any strategy may be named here. -/
theorem refused_determinize (nfa : Nfa) (limit : Nat) (any : Strategy) :
    RefusedOnly any.MayRefuse (strategy.determinize nfa limit) := by
  rw [Strategy.determinize_eq]
  rcases nfa.determinize_cases limit with ⟨d, _, _, hok, -⟩ | ⟨herror, -⟩
  · rw [hok]
    exact .ok d
  · rw [herror]
    exact .error trivial

end Nfa

namespace Dfa

/-- Minimization is not refused, for automata that can be built and have a state. -/
theorem refused_minimize {d : Dfa} (built : d.Built) (pos : 0 < d.numStates) :
    RefusedOnly strategy.MayRefuse d.minimize := by
  rcases minimize_spec built pos with ⟨-, hok⟩ | ⟨m, hok, -⟩
  · rw [hok]
    exact .ok d
  · rw [hok]
    exact .ok m

/-- Unless it is configured, the capacity is not what a pattern is refused for. -/
theorem refused_unminimized :
    RefusedOnly (config.strategy.getD .hash).MayRefuse (unminimized config pattern) := by
  rw [unminimized_eq]
  exact (Nfa.refused_ofPattern config _ pattern).bind fun nfa _ =>
    Nfa.refused_determinize _ nfa _ _

theorem refused_general :
    RefusedOnly (config.strategy.getD .hash).MayRefuse (general config pattern) := by
  refine (refused_unminimized config pattern).bind fun whole hwhole => ?_
  obtain ⟨e, he⟩ := exists_derivation_of_unminimized hwhole
  have recognizes := recognizes_of_unminimized hwhole he
  exact refused_minimize _ recognizes.built recognizes.pos

/-- **What a pattern may be refused for**, whichever way is taken. -/
theorem refused_ofPattern :
    RefusedOnly (config.strategy.getD .hash).MayRefuse (ofPattern config pattern) := by
  have general := refused_general config pattern
  rw [ofPattern]
  refine .ite ?_ general
  cases direct? config pattern with
  | none => exact general
  | some d => exact .ok d

end Dfa

/-- **What a pattern may be refused for** on the way to a nondeterministic automaton. -/
theorem Nfa.refused_minimalOfPattern :
    RefusedOnly Strategy.hash.MayRefuse (Nfa.minimalOfPattern config pattern) := by
  refine (Nfa.refused_ofPattern config .hash pattern).bind fun nfa hnfa => ?_
  refine (Nfa.refused_determinize .hash _ _ _).bind fun whole hwhole => ?_
  have det := Strategy.determinizes_of_determinize (Nfa.wellFormed_of_ofPattern hnfa) hwhole
  exact (Dfa.refused_minimize _ det.built det.pos).bind fun minimal _ =>
    ((Strategy.refused_check .hash _).weaken fun _ h => h.1).bind fun _ _ => .ok _

/-! ### What never happens -/

/-- **Nothing but refusals.**  For every configuration and every pattern, the ways to an automaton
and matching are orderly: no rule of an automaton would be broken on the way, nothing is looked up
that is not there, and the capacity runs out only for deterministic automata and only if dense
sets are configured.  The powerset construction is orderly for every nondeterministic automaton,
and minimization for every deterministic one that can be built and has a state. -/
theorem compile_orderly :
    (∀ (config : Config) (pattern input : List Char),
      Orderly (config.strategy = some .bit) (Guarded.ofPattern config pattern)
        (Dfa.ofPattern config pattern) ∧
      Orderly (config.strategy = some .bit) (Guarded.unminimized config pattern)
        (Dfa.unminimized config pattern) ∧
      Orderly (config.strategy = some .bit) (Guarded.isMatch config pattern input)
        (config.isMatch pattern input) ∧
      Orderly False (Guarded.ofRegex config .hash pattern)
        (Nfa.ofPattern config .hash pattern) ∧
      Orderly False (Guarded.minimalOfPattern config pattern)
        (Nfa.minimalOfPattern config pattern)) ∧
    (∀ (strategy : Strategy) (nfa : Nfa) (limit : Nat),
      Orderly False (Guarded.lift (strategy.determinizeStepwise nfa limit))
        (strategy.determinize nfa limit)) ∧
    ∀ d : Dfa, d.Built → 0 < d.numStates → Orderly False (Guarded.minimize d) d.minimize := by
  have hash : Strategy.hash = .bit → False := nofun
  refine ⟨fun config pattern input => ?_, fun strategy nfa limit => ?_, fun d built pos => ?_⟩
  -- with no strategy configured the sets are hash sets, which have no capacity to run out of
  · have configured : config.strategy.getD .hash = .bit → config.strategy = some .bit := by
      cases config.strategy with
      | none => exact fun h => absurd h hash
      | some chosen => exact congrArg some
    have ofPattern := Dfa.refused_ofPattern config pattern
    exact ⟨.of_refused (Guarded.ofPattern_eq config pattern) ofPattern configured,
      .of_refused (Guarded.unminimized_eq config pattern)
        (Dfa.refused_unminimized config pattern) configured,
      .of_refused (Guarded.isMatch_eq config pattern input)
        (ofPattern.bind fun _ _ => .ok _) configured,
      .of_refused (Guarded.ofRegex_eq config .hash pattern)
        (Nfa.refused_ofPattern config .hash pattern) hash,
      .of_refused (Guarded.minimalOfPattern_eq config pattern)
        (Nfa.refused_minimalOfPattern config pattern) hash⟩
  · exact .of_refused (by rw [strategy.determinizeStepwise_eq])
      (Nfa.refused_determinize strategy nfa limit .hash) hash
  · exact .of_refused (Guarded.minimize_eq pos) (Dfa.refused_minimize .hash built pos) hash

/-- Two states with an edge from one to the other, which are a deterministic automaton that can be
built. -/
theorem compile_orderly_of_edge :
    let d := (((Dfa.withAlphabet ∅).addState false).addState true).file 0 'a' 1
    d.Built ∧ 0 < d.numStates ∧ Orderly False (Guarded.minimize d) d.minimize := by
  intro d
  have step : (((Dfa.withAlphabet ∅).addState false).addState true).addTransition 0 'a' 1 =
      .ok d := rfl
  have built : d.Built := .addTransition (.addState true (.addState false (.withAlphabet ∅))) step
  have pos : 0 < d.numStates := Nat.two_pos
  exact ⟨built, pos, compile_orderly.2.2 d built pos⟩

end PatternAutomata
