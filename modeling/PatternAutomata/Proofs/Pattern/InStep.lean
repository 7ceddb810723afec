import PatternAutomata.Pattern.Assembly
import PatternAutomata.Proofs.Error

/-!
# Readings in step

A pattern may be read under two configurations that differ in their bounds only.  As long as no
bound of the first is met, the two readings have put together the same trees
(`InStep.parse_upto`).

What the two readings are compared for is left open: the refusals that set them apart are a
parameter.  With the refusals for a limit, a pattern is read alike under higher limits; with those
for a capacity, it is read alike with hashed and dense sets.  All that has to be shown for either
is that the checks go together (`InStep`).  Every function is then one application of the rules
for computations in step, along its own text.
-/

namespace PatternAutomata

open Error (Upto)
open Regex (Sized)

variable {E : Error → Prop}

/-! ### Operators -/

/-- `Ceiling.InStep E c c'`: every check of the first ceiling has the outcome of that of the
second, unless it refuses for one of the causes `E`. -/
structure Ceiling.InStep (E : Error → Prop) (c c' : Ceiling) : Prop where
  reserve_upto : ∀ states, Upto E (c.reserve states) (c'.reserve states)
  check_upto : ∀ requests, Upto E (c.strategy.checkAll requests) (c'.strategy.checkAll requests)

namespace Ceiling.InStep

variable {c c' : Ceiling}

theorem union_upto (h : Ceiling.InStep E c c') (l r : Sized) :
    Upto E (c.union l r) (c'.union l r) :=
  (h.reserve_upto _).bind fun _ => (h.check_upto _).bind fun _ => .refl _

theorem concat_upto (h : Ceiling.InStep E c c') (l r : Sized) :
    Upto E (c.concat l r) (c'.concat l r) :=
  (h.reserve_upto _).bind fun _ => (h.check_upto _).bind fun _ => .refl _

theorem checkPlus_upto (h : Ceiling.InStep E c c') (n : Nat) :
    Upto E (c.strategy.checkPlus n) (c'.strategy.checkPlus n) :=
  (h.check_upto _).bind fun _ => h.check_upto _

theorem repeated_upto (h : Ceiling.InStep E c c') (sign : Quantifier) (r : Sized) :
    Upto E (c.repeated sign r) (c'.repeated sign r) := by
  refine (h.reserve_upto _).bind fun _ => ?_
  cases sign with
  | plus => exact (h.checkPlus_upto _).bind fun _ => .refl _
  | star => exact (h.check_upto _).bind fun _ => .refl _
  | optional => exact (h.check_upto _).bind fun _ => .refl _

theorem join_upto (h : Ceiling.InStep E c c') (level : Level) :
    Upto E (level.join c) (level.join c') := by
  obtain ⟨alternatives, front, last⟩ := level
  cases last with
  | none => exact .refl _
  | some factor =>
      cases front with
      | none => exact .refl _
      | some front => exact (h.concat_upto _ _).bind fun _ => .refl _

theorem close_upto (h : Ceiling.InStep E c c') (level : Level) :
    Upto E (level.close c) (level.close c') := by
  refine (h.join_upto level).bind fun level => ?_
  cases level.alternatives with
  | none => exact .refl _
  | some before => exact h.union_upto _ _

end Ceiling.InStep

/-! ### Patterns -/

/-- `InStep E config strategy config' strategy'`: `.` stands for the same symbols, and every check
that is made while a pattern is read has the same outcome, unless the first refuses for one of the
causes `E`.  What a class or the depth check is refused for may be a cause of the text, so these
are asked as wholes. -/
structure InStep (E : Error → Prop) (config : Config) (strategy : Strategy) (config' : Config)
    (strategy' : Strategy) : Prop where
  dot_eq : config.dotAlphabet = config'.dotAlphabet
  members_upto : ∀ (b : Bracket) (offset : Nat),
    Upto E (b.members config.maxClassSize offset) (b.members config'.maxClassSize offset)
  depth_upto : ∀ (tokens : List (Nat × Token)) (depth : Nat),
    Upto E (Assembly.checkDepth config.maxNestingDepth depth tokens)
      (Assembly.checkDepth config'.maxNestingDepth depth tokens)
  ceilings : Ceiling.InStep E ⟨config.maxNfaStates, strategy⟩ ⟨config'.maxNfaStates, strategy'⟩

namespace InStep

variable {config config' : Config} {strategy strategy' : Strategy}

theorem addChoice_upto (h : InStep E config strategy config' strategy') (a : Assembly)
    {symbols symbols' : Except Error Alphabet} (hsymbols : Upto E symbols symbols') :
    Upto E (a.addChoice ⟨config.maxNfaStates, strategy⟩ symbols)
      (a.addChoice ⟨config'.maxNfaStates, strategy'⟩ symbols') :=
  (h.ceilings.join_upto a.level).bind fun _ => hsymbols.bind fun _ => .refl _

/-- **A token is taken in alike**, or the first reading is refused for one of the causes. -/
theorem step_upto (h : InStep E config strategy config' strategy') (a : Assembly)
    (token : Nat × Token) :
    Upto E (a.step config ⟨config.maxNfaStates, strategy⟩ token)
      (a.step config' ⟨config'.maxNfaStates, strategy'⟩ token) := by
  obtain ⟨offset, token⟩ := token
  cases token with
  | symbol c => exact h.addChoice_upto a (.refl _)
  | dot => exact h.addChoice_upto a (.inl (congrArg _ h.dot_eq))
  | bracket b => exact h.addChoice_upto a (h.members_upto b offset)
  | dangling => exact h.addChoice_upto a (.refl _)
  | opening => exact (h.ceilings.join_upto a.level).bind fun _ => .refl _
  | bar => exact (h.ceilings.close_upto a.level).bind fun _ => .refl _
  | closing => exact (h.ceilings.close_upto a.level).bind fun _ => .refl _
  | repetition sign =>
      rw [Assembly.step, Assembly.step]
      cases a.level.last with
      | none => exact .refl _
      | some factor => exact (h.ceilings.repeated_upto sign factor).bind fun _ => .refl _

theorem run_upto (h : InStep E config strategy config' strategy') (a : Assembly)
    (tokens : List (Nat × Token)) :
    Upto E (a.run config ⟨config.maxNfaStates, strategy⟩ tokens)
      (a.run config' ⟨config'.maxNfaStates, strategy'⟩ tokens) := by
  refine (Upto.foldlM h.step_upto tokens a).bind fun a => ?_
  exact (h.ceilings.close_upto a.level).bind fun _ => .refl _

/-- **A pattern is read alike**, from its anchors to its end. -/
theorem parse_upto (h : InStep E config strategy config' strategy') (pattern : List Char) :
    Upto E (Regex.parse config strategy pattern) (Regex.parse config' strategy' pattern) :=
  (h.depth_upto _ 0).bind fun _ => (h.run_upto .start _).bind fun _ => .refl _

end InStep

end PatternAutomata
