import PatternAutomata.Dfa.Completion
import PatternAutomata.Dfa.Survey
import PatternAutomata.Nfa.Stored

/-!
# The powerset construction

A deterministic automaton can follow a nondeterministic one by keeping track of the set of states
that are active.  `Nfa.powerset` presents this as a transition system whose points are sets, and
`TransitionSystem.determinize` lays any system out as an automaton that is complete over an
alphabet.

## The empty set is not a point

Only sets that some input makes active get a state.  The empty set gets none of its own: where
nothing stays active an edge is missing, and missing edges are sent to a dead state at the end,
which therefore has the last number whenever it is first needed.  A construction with the empty
set as a point among others would number the dead state where it is met first, and the states
after it would have other numbers.

## Two places to run out of room

The survey stops when it would need a point too many.  The dead state comes on top of the points,
so its number is held against the limit once more.  In either case the refusal names one more than
the limit, since nothing further is counted.

The states stand for the sets that they come from: the mapping has the sorted list of active
states for each, and the empty list for the dead state.  `Nfa.powersetIn` is the same system with
the sets held in a store, and as points are known by their sorted lists the numbering cannot tell
the difference.
-/

namespace PatternAutomata

namespace TransitionSystem

variable {σ : Type}

/-- The keys of the points found, by number: what each state of the automaton stands for. -/
def keys (system : TransitionSystem σ) (found : Array σ) : Std.ExtTreeMap Nat (List Nat) :=
  .ofList (found.toList.zipIdx.map fun (point, n) => (n, system.key point))

/-- **A system laid out as an automaton** that is complete over an alphabet, as long as it has at
most `limit` states.  The states stand for the keys of the points found, and a dead state for the
empty key.  The order is that of the survey, with the dead state behind it. -/
def determinize (system : TransitionSystem σ) (alphabet : Alphabet) (accepting : σ → Bool)
    (limit : Nat) : Except Error Dfa :=
  match system.survey limit with
  | none => .error (.stateLimitExceeded (limit + 1) limit)
  | some survey => do
    let partly ← Dfa.ofRows alphabet
      ((survey.found.toList.map accepting).zip survey.rows.toList)
    if !partly.isComplete && limit < partly.numStates + 1 then
      throw (.stateLimitExceeded (partly.numStates + 1) limit)
    let (whole, dead) ← partly.complete
    let known := system.keys survey.found
    return whole.setMapping <|
      match dead with
      | none => known
      | some dead => known.insert dead []

end TransitionSystem

namespace Nfa

/-- The sets of active states, and how they follow from one another as long as anything stays
active.  There may be exponentially many; the limit of the survey is what keeps this finite in
practice. -/
def powerset (nfa : Nfa) : TransitionSystem StateSet where
  start := nfa.initial
  edges active := nfa.alphabet.toList.filterMap fun c =>
    let next := nfa.advance active c
    if next.isEmpty then none else some (c, next)
  key active := active.toList

/-- **The deterministic automaton**, numbered breadth first, as long as it has at most
`limit` states. -/
def determinize (nfa : Nfa) (limit : Nat) : Except Error Dfa :=
  nfa.powerset.determinize nfa.alphabet (·.intersects nfa.accepting) limit

/-- The same system, with the active states held in a store. -/
def powersetIn (S : Type) [StateStore S] [LawfulStateStore S] (nfa : Nfa) :
    TransitionSystem S where
  start := nfa.initialIn S
  edges active := nfa.alphabet.toList.filterMap fun c =>
    let next := nfa.advanceIn active c
    if StateStore.isEmpty next then none else some (c, next)
  key := StateStore.toList

/-- The deterministic automaton, with the active states held in a store. -/
def determinizeIn (S : Type) [StateStore S] [LawfulStateStore S] (nfa : Nfa) (limit : Nat) :
    Except Error Dfa :=
  (nfa.powersetIn S).determinize nfa.alphabet nfa.acceptingIn limit

end Nfa

/-- The deterministic automaton of a nondeterministic one, with the sets of a strategy. -/
def Strategy.determinize (strategy : Strategy) (nfa : Nfa) (limit : Nat) : Except Error Dfa :=
  nfa.determinizeIn strategy.Store limit

end PatternAutomata
