import PatternAutomata.Nfa.Builder
import PatternAutomata.Nfa.Stored
import PatternAutomata.Proofs.Nfa.Path

/-!
# Closures that are remembered

An automaton may be asked for the same closure many times, so it remembers the closures that it
was asked for, until an edge is added.  A `Nfa.Live` is an automaton together with what it
remembers, and being asked changes it: `Nfa.Live.closure` gives an answer *and* another
`Nfa.Live`.  Nothing protects the answers from going stale except that `Nfa.Live.addEdge` forgets
all of them; that this is enough, over any history of questions and changes, is what has to be
proved.

## The search as a loop

`Nfa.Visit` is a search along epsilon edges at some point of it, with a stack and the states met
so far, and `Nfa.Visit.pass` is one pass.  States are met when they are taken off the stack, so a
state may be put there twice and is skipped the second time.  Every pass leaves less to do
(`Nfa.Visit.work_pass_lt`), by the count that every search here ends by, and `Nfa.Visit.finish`
runs passes until the stack is empty.

## What is left open

The sets that a search goes through are gone through in no particular order.  They are counted,
and an `Arrangement` has an order for each of them; a run takes a fresh one for every closure and
every move.

States that are not there may be asked for.  They are met, and no edge leaves them.  They may be
added later, and still none does until one is added, which is why adding a state need not forget
anything.
-/

namespace PatternAutomata

namespace Nfa

variable {S : Type} [StateStore S] [LawfulStateStore S]

/-- A search along epsilon edges, at some point of it.  The number is there for the arrangement,
which may have another order for every set. -/
structure Visit (S : Type) where
  /-- The states met so far. -/
  met : S
  /-- The states still to be looked at, latest first. -/
  stack : List Nat
  /-- The number of sets gone through so far. -/
  number : Nat

namespace Visit

/-- Nothing has been met. -/
def begin (order : Arrangement) (nfa : Nfa) (states : S) : Visit S where
  met := StateStore.withCapacity nfa.numStates
  stack := (order.arrange 0 (StateStore.toList states)).reverse
  number := 1

/-- **One pass of the search.**  The latest state is taken.  If it is new it is met, and those
targets of its epsilon edges that are new as well are to be looked at.  A target may be on the
stack already and is put there again. -/
def pass (order : Arrangement) (nfa : Nfa) (visit : Visit S) : Visit S :=
  match visit.stack with
  | [] => visit
  | s :: rest =>
    if StateStore.contains visit.met s then { visit with stack := rest }
    else
      let met := StateStore.insert visit.met s
      let found := (order.arrange visit.number (nfa.silent s).toList).filter fun t =>
        !StateStore.contains met t
      { met, stack := found.reverse ++ rest, number := visit.number + 1 }

/-- What is left to do: the states to look at, and the edges of the states not met. -/
def work (nfa : Nfa) (visit : Visit S) : Nat :=
  Search.work nfa.numStates (fun s => (nfa.silent s).toList) (StateStore.elements visit.met)
    visit.stack

/-- **Every pass leaves less to do.** -/
theorem work_pass_lt (order : Arrangement) (nfa : Nfa) {visit : Visit S} (h : visit.stack ≠ []) :
    (visit.pass order nfa).work nfa < visit.work nfa := by
  obtain ⟨met, stack, number⟩ := visit
  cases stack with
  | nil => exact absurd rfl h
  | cons s rest =>
      simp only [pass, work, Search.work]
      by_cases hs : StateStore.contains met s = true
      · simp [hs]
      · have few : ((order.arrange number (nfa.silent s).toList).filter fun t =>
            !StateStore.contains (StateStore.insert met s) t).length ≤
              (nfa.silent s).toList.length :=
          (order.perm number (nfa.silent s).toList).length_eq ▸ List.length_filter_le ..
        simp only [hs, Bool.false_eq_true, if_false, List.length_append, List.length_reverse,
          List.length_cons, StateStore.elements_insert]
        rcases Nat.lt_or_ge s nfa.numStates with hlt | hle
        · have left := Search.edgesLeft_insert (fun s => (nfa.silent s).toList) hlt
            (mt StateStore.mem_elements.1 hs)
          omega
        · have none : (nfa.silent s).toList.length = 0 := by
            rw [silent_eq_empty_of_le hle]
            rfl
          rw [Search.edgesLeft_insert_of_le _ _ hle]
          omega

/-- The states met when nothing is left to look at. -/
def finish {S : Type} [StateStore S] [LawfulStateStore S] (order : Arrangement) (nfa : Nfa)
    (visit : Visit S) : S :=
  if visit.stack = [] then visit.met else (visit.pass order nfa).finish order nfa
  termination_by visit.work nfa
  decreasing_by exact work_pass_lt order nfa ‹_›

end Visit

/-- An automaton with the closures that it remembers, latest first, each under the states that it
was asked for. -/
structure Live (strategy : Strategy) where
  nfa : Nfa
  known : List (strategy.Store × strategy.Store)

namespace Live

variable {strategy : Strategy}

/-- An automaton that remembers nothing. -/
def fresh (strategy : Strategy) (nfa : Nfa) : Live strategy := ⟨nfa, []⟩

/-- **The closure of some states**, remembered or searched for and then remembered.  States are
compared as keys, so a set that is held otherwise finds the same entry. -/
def closure (order : Arrangement) (live : Live strategy) (states : strategy.Store) :
    strategy.Store × Live strategy :=
  match live.known.find? fun entry => StateStore.sameKey entry.1 states with
  | some entry => (entry.2, live)
  | none =>
    let met := (Visit.begin order live.nfa states).finish order live.nfa
    (met, { live with known := (states, met) :: live.known })

/-- The targets of some states under a symbol, where the states are gone through in some order. -/
def move (order : Arrangement) (live : Live strategy) (states : strategy.Store) (c : Char) :
    strategy.Store :=
  (order.arrange 0 (StateStore.toList states)).foldl
    (fun reached s => StateStore.union reached (hold strategy.Store (live.nfa.on s c)))
    (StateStore.withCapacity live.nfa.numStates)

/-- Whether the rest of an input is accepted while some states are active. -/
def acceptsFrom (orders : Nat → Arrangement) (live : Live strategy) (active : strategy.Store) :
    List Char → Bool × Live strategy
  | [] => (live.nfa.acceptingIn active, live)
  | c :: rest =>
    let (next, later) := live.closure (orders 1) (live.move (orders 0) active c)
    if StateStore.isEmpty next then (false, later)
    else later.acceptsFrom (fun number => orders (number + 2)) next rest

/-- **Whether an input is accepted**, where the sets are gone through in some orders.  The
closures on the way are remembered too, so this changes what is remembered. -/
def accepts (orders : Nat → Arrangement) (live : Live strategy) (input : List Char) :
    Bool × Live strategy :=
  let (active, later) :=
    live.closure (orders 0) (StateStore.singleton live.nfa.start live.nfa.numStates)
  later.acceptsFrom (fun number => orders (number + 1)) active input

/-- The automaton as a builder has it. -/
def builder (live : Live strategy) : Builder :=
  ⟨live.nfa.rows, some live.nfa.start, live.nfa.accepting, live.nfa.alphabet⟩

/-- Adds a state.  No edge leads to it yet, so what is remembered stays right. -/
def addState (live : Live strategy) : Except Error (Live strategy) := do
  let b ← live.builder.addState strategy
  return { live with nfa := { live.nfa with rows := b.rows } }

/-- Adds an edge, and forgets all closures, also if the edge is one under a symbol and changes
none of them. -/
def addEdge (live : Live strategy) (source : Nat) (label : Label) (target : Nat) :
    Except Error (Live strategy) := do
  let b ← live.builder.addEdge source label target
  return { nfa := { live.nfa with rows := b.rows, alphabet := b.alphabet }, known := [] }

/-- What may be asked for. -/
inductive Request (strategy : Strategy) where
  /-- One more state. -/
  | addState
  /-- An edge. -/
  | addEdge (source : Nat) (label : Label) (target : Nat)
  /-- A closure, where sets are gone through in some order. -/
  | ask (order : Arrangement) (states : strategy.Store)

/-- What one request leaves.  A request that is refused leaves everything as it is, what is
remembered included. -/
def perform (live : Live strategy) : Request strategy → Live strategy
  | .addState => live.addState.toOption.getD live
  | .addEdge source label target => (live.addEdge source label target).toOption.getD live
  | .ask order states => (live.closure order states).2

/-- **What some requests leave**, one after another. -/
def after (live : Live strategy) (requests : List (Request strategy)) : Live strategy :=
  requests.foldl perform live

end Live

end Nfa

end PatternAutomata
