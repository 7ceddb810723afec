import Mathlib.Computability.Language
import PatternAutomata.Proofs.Nfa.Obtainable
import PatternAutomata.Proofs.Nfa.Stored

/-!
# The operators on automata and the operators on languages

The language of an automaton is the set of the words it accepts.  The operators on automata carry
over to the operators on languages, for every automaton that can be obtained, and they are refused
only where the result would have more states than a strategy can hold (`Nfa.language_operators`).

## What an outcome is

The outcome of an operator depends on one number, that of the states of its result.
`Strategy.Makes` says how: if so many states are within the capacity, there is a result, it has
that many states and the language that is asked for; if not, the operator is refused.  Stated in
this way the theorem covers both outcomes, and no automaton has to be small enough by hypothesis.

## Which number is refused

An operator asks for states more than once on the way, and the request that is refused is the
first that is beyond the capacity.  The last request is the greatest, so a construction is refused
just when its result would be (`Strategy.checkAll_guards`).  The number that is named in the
refusal may be one that is passed on the way; `Strategy.RefusedBelow` bounds it from both sides.
-/

namespace PatternAutomata

open Computability

namespace Strategy

variable {strategy : Strategy} {n m : Nat}

/-! ### Capacity -/

/-- `strategy.Exceeds n`: there is a capacity, and `n` states are more.  Hashed sets have no
capacity, so nothing exceeds it. -/
def Exceeds (strategy : Strategy) (n : Nat) : Prop :=
  ∃ capacity, strategy.maxStates? = some capacity ∧ capacity < n

theorem Exceeds.mono (h : strategy.Exceeds n) (hle : n ≤ m) : strategy.Exceeds m := by
  obtain ⟨capacity, hcapacity, hlt⟩ := h
  exact ⟨capacity, hcapacity, hlt.trans_le hle⟩

/-- The cause of refusal for a number of states up to `n` that is beyond the capacity. -/
def RefusedBelow (strategy : Strategy) (n : Nat) (e : Error) : Prop :=
  ∃ capacity requested, e = .capacityExceeded capacity requested ∧
    strategy.maxStates? = some capacity ∧ capacity < requested ∧ requested ≤ n

/-- `strategy.Guards n outcome`: passes just when `n` states are within the capacity. -/
structure Guards (strategy : Strategy) (n : Nat) (outcome : Except Error Unit) : Prop where
  passes : ¬ strategy.Exceeds n → outcome = .ok ()
  refuses : strategy.Exceeds n → ∃ e, outcome = .error e ∧ strategy.RefusedBelow n e

theorem check_guards (strategy : Strategy) (n : Nat) :
    strategy.Guards n (strategy.check n) := by
  unfold check
  cases hcapacity : strategy.maxStates? with
  | none =>
      refine ⟨fun _ => rfl, ?_⟩
      rintro ⟨capacity, h, -⟩
      rw [hcapacity] at h
      cases h
  | some capacity =>
      refine ⟨fun h => if_pos ?_, ?_⟩
      · exact Nat.not_lt.1 fun hlt => h ⟨capacity, hcapacity, hlt⟩
      · rintro ⟨other, h, hlt⟩
        obtain rfl : capacity = other := Option.some.inj (hcapacity.symm.trans h)
        exact ⟨_, if_neg (Nat.not_le.2 hlt), _, _, rfl, hcapacity, hlt, Nat.le_refl n⟩

theorem checkAll_append (strategy : Strategy) (requests later : List Nat) :
    strategy.checkAll (requests ++ later) =
      (do strategy.checkAll requests; strategy.checkAll later) := by
  induction requests with
  | nil => rfl
  | cons requested rest ih =>
      rw [List.cons_append, checkAll_cons, checkAll_cons, ih, bind_assoc]

/-- **Numbers of states are refused if the greatest of them is.**  A smaller one may be refused
first, but then the greatest would be as well. -/
theorem checkAll_guards {requests : List Nat} (hmem : n ∈ requests)
    (hle : ∀ requested ∈ requests, requested ≤ n) :
    strategy.Guards n (strategy.checkAll requests) := by
  constructor
  · intro fits
    clear hmem
    induction requests with
    | nil => rfl
    | cons requested rest ih =>
        obtain ⟨hrequested, hrest⟩ := List.forall_mem_cons.1 hle
        have hfits : ¬ strategy.Exceeds requested := fun h => fits (h.mono hrequested)
        rw [checkAll_cons, (check_guards strategy requested).passes hfits]
        exact ih hrest
  · intro exceeds
    induction requests with
    | nil => cases hmem
    | cons requested rest ih =>
        obtain ⟨hrequested, hrest⟩ := List.forall_mem_cons.1 hle
        rw [checkAll_cons]
        by_cases h : strategy.Exceeds requested
        · -- a number on the way to the greatest is refused first
          obtain ⟨e, he, capacity, refused, rfl, hcapacity, hlt, hle⟩ :=
            (check_guards strategy requested).refuses h
          exact ⟨_, by rw [he]; rfl, capacity, refused, rfl, hcapacity, hlt, hle.trans hrequested⟩
        · rw [(check_guards strategy requested).passes h]
          refine ih ?_ hrest
          exact (List.mem_cons.1 hmem).resolve_left fun heq => h (heq ▸ exceeds)

theorem checkUnion_guards (n m : Nat) :
    strategy.Guards (n + m + 2) (strategy.checkUnion n m) :=
  checkAll_guards (by simp; omega) (by simp; omega)

theorem checkConcat_guards (n m : Nat) : strategy.Guards (n + m) (strategy.checkConcat n m) :=
  checkAll_guards (by simp) (by simp)

theorem checkAround_guards (n : Nat) : strategy.Guards (n + 2) (strategy.checkAround n) :=
  checkAll_guards (by simp; omega) (by simp; omega)

theorem checkPlus_guards (n : Nat) : strategy.Guards (2 * n + 2) (strategy.checkPlus n) := by
  rw [checkPlus, checkAround, checkConcat, ← checkAll_append]
  exact checkAll_guards (by simp; omega) (by simp; omega)

/-! ### Languages -/

/-- The language of an automaton: the words that it accepts, with the sets of a strategy. -/
def language (strategy : Strategy) (nfa : Nfa) : Language Char :=
  {w | strategy.accepts nfa w = true}

theorem mem_language {nfa : Nfa} {w : List Char} :
    w ∈ strategy.language nfa ↔ nfa.accepts w = true := by
  rw [← strategy.accepts_eq nfa w]
  rfl

/-- `strategy.Makes states language outcome`: unless so many states exceed the capacity, there is
an automaton for the language that has so many; and if they do, the construction is refused. -/
structure Makes (strategy : Strategy) (states : Nat) (language : Language Char)
    (outcome : Except Error Nfa) : Prop where
  result : ¬ strategy.Exceeds states →
    ∃ nfa, outcome = .ok nfa ∧ nfa.numStates = states ∧ strategy.language nfa = language
  refuses : strategy.Exceeds states → ∃ e, outcome = .error e ∧ strategy.RefusedBelow states e

/-- What is guarded by the number of its states is made or refused.  So each operator needs the
number of its states and its language, and no more. -/
theorem Guards.makes {states : Nat} {check : Except Error Unit} {nfa : Nfa}
    {language : Language Char} (guards : strategy.Guards states check)
    (numStates_eq : nfa.numStates = states) (language_eq : strategy.language nfa = language) :
    strategy.Makes states language (do check; return nfa) := by
  constructor
  · intro h
    refine ⟨nfa, ?_, numStates_eq, language_eq⟩
    rw [guards.passes h]
    rfl
  · intro h
    obtain ⟨e, he, refused⟩ := guards.refuses h
    refine ⟨e, ?_, refused⟩
    rw [he]
    rfl

end Strategy

namespace Nfa

variable {strategy : Strategy} {a b : Nfa}

open Strategy (mem_language)

theorem language_union (ha : a.WellFormed) (hb : b.WellFormed) :
    strategy.language (a.union b) = strategy.language a + strategy.language b := by
  ext w
  rw [mem_language, accepts_union ha hb, Language.mem_add, mem_language, mem_language]

theorem language_concat (ha : a.WellFormed) (hb : b.WellFormed) :
    strategy.language (a.concat b) = strategy.language a * strategy.language b := by
  ext w
  rw [mem_language, accepts_concat ha hb, Language.mem_mul]
  constructor
  · rintro ⟨u, v, rfl, hu, hv⟩
    exact ⟨u, mem_language.2 hu, v, mem_language.2 hv, rfl⟩
  · rintro ⟨u, hu, v, hv, rfl⟩
    exact ⟨u, v, rfl, mem_language.1 hu, mem_language.1 hv⟩

theorem language_star (wf : a.WellFormed) :
    strategy.language a.star = (strategy.language a)∗ := by
  ext w
  simp only [mem_language, accepts_star wf, Language.mem_kstar]

theorem language_plus (wf : a.WellFormed) :
    strategy.language a.plus = strategy.language a * (strategy.language a)∗ := by
  rw [plus, language_concat wf wf.star, language_star wf]

theorem language_optional (wf : a.WellFormed) :
    strategy.language a.optional = strategy.language a + 1 := by
  ext w
  rw [mem_language, accepts_optional wf, Language.mem_add, mem_language, Language.mem_one, or_comm]

theorem numStates_plus (wf : a.WellFormed) : a.plus.numStates = 2 * a.numStates + 2 := by
  rw [plus, numStates_concat, (wraps_star wf).numStates_eq]
  omega

/-- **The operators on automata make what the operators on languages say.**  This is so for all
automata that can be obtained: however many states accept, and wherever edges lead.  An operator
is refused just when the states of its result exceed the capacity of the strategy. -/
theorem language_operators (ha : Obtainable strategy a) (hb : Obtainable strategy b) :
    let n := a.numStates
    let m := b.numStates
    let first := strategy.language a
    let second := strategy.language b
    strategy.Makes (n + m + 2) (first + second) (strategy.union a b) ∧
    strategy.Makes (n + m) (first * second) (strategy.concat a b) ∧
    strategy.Makes (n + 2) first∗ (strategy.star a) ∧
    strategy.Makes (2 * n + 2) (first * first∗) (strategy.plus a) ∧
    strategy.Makes (n + 2) (first + 1) (strategy.optional a) := by
  intro n m first second
  have wfa := ha.wellFormed
  have wfb := hb.wellFormed
  refine ⟨?union, ?concat, ?star, ?plus, ?optional⟩
  case union =>
    exact (Strategy.checkUnion_guards n m).makes (numStates_union a b) (language_union wfa wfb)
  case concat =>
    exact (Strategy.checkConcat_guards n m).makes (numStates_concat a b) (language_concat wfa wfb)
  case star =>
    exact (Strategy.checkAround_guards n).makes (wraps_star wfa).numStates_eq (language_star wfa)
  case plus =>
    exact (Strategy.checkPlus_guards n).makes (numStates_plus wfa) (language_plus wfa)
  case optional =>
    exact (Strategy.checkAround_guards n).makes (wraps_optional wfa).numStates_eq
      (language_optional wfa)

/-- A state that is start and accepts has an edge to itself, and nothing accepts in the other
operand.  So one copy has an edge back to where it is entered, and the other cannot be left. -/
theorem language_operators_of_loop :
    let d := ((Dfa.withAlphabet (.ofList ['a'])).addState true).file 0 'a' 0
    Obtainable .bit d.toNfa ∧ Obtainable .bit Nfa.empty ∧
      Strategy.bit.Makes 4 (Strategy.bit.language d.toNfa + Strategy.bit.language Nfa.empty)
        (Strategy.bit.union d.toNfa .empty) ∧
      Strategy.bit.Makes 2 (Strategy.bit.language d.toNfa * Strategy.bit.language Nfa.empty)
        (Strategy.bit.concat d.toNfa .empty) ∧
      Strategy.bit.Makes 3 (Strategy.bit.language d.toNfa)∗ (Strategy.bit.star d.toNfa) ∧
      Strategy.bit.Makes 4 (Strategy.bit.language d.toNfa * (Strategy.bit.language d.toNfa)∗)
        (Strategy.bit.plus d.toNfa) ∧
      Strategy.bit.Makes 3 (Strategy.bit.language d.toNfa + 1)
        (Strategy.bit.optional d.toNfa) := by
  intro d
  have hb : d.Built := ((Dfa.Built.withAlphabet _).addState true).file (by decide) (by decide) rfl
  have ha : Obtainable .bit d.toNfa := .ofDfa hb Nat.one_pos rfl
  have hempty : Obtainable .bit Nfa.empty := .empty .bit
  have hall := language_operators ha hempty
  rw [show d.toNfa.numStates = 1 from d.numStates_toNfa] at hall
  exact ⟨ha, hempty, hall⟩

end Nfa

end PatternAutomata
