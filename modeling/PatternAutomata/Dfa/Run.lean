import PatternAutomata.Dfa.Basic

/-!
# Running a deterministic automaton

A deterministic automaton reads an input symbol by symbol and is in one state at a time.
`Dfa.accepts` says whether the input is accepted, and `Dfa.trace` keeps the record of how this
came about: the steps one by one, and an `Outcome`.

The two are separate recursions on the input.  Acceptance treats a missing edge as the end of the
matter; a trace has to say more.  A run that cannot go on ends where it is, and the outcome tells
whether the symbol is foreign to the automaton (`unknownSymbol`) or is one of its symbols that
just has no edge there (`noTransition`), and at which position.  The alphabet is asked before the
edges, so a foreign symbol is called so whatever the state is.
-/

namespace PatternAutomata.Dfa

/-- Whether the rest of an input is accepted from a state.  Where an edge is missing, nothing that
follows is accepted. -/
def acceptsFrom (dfa : Dfa) (state : Nat) : List Char → Bool
  | [] => dfa.isAccepting state
  | c :: rest =>
    match dfa.transition state c with
    | some next => dfa.acceptsFrom next rest
    | none => false

/-- **Whether an input is accepted.** -/
def accepts (dfa : Dfa) (input : List Char) : Bool :=
  dfa.acceptsFrom dfa.start input

/-- One symbol read, with the states before and after. -/
structure Step where
  source : Nat
  symbol : Char
  target : Nat
  deriving DecidableEq

/-- How a run ended.  Positions count the symbols read before, so they are indices into the
input. -/
inductive Outcome where
  /-- At the end of the input, in an accepting state. -/
  | accepted
  /-- At the end of the input, in a state that does not accept. -/
  | rejected (state : Nat)
  /-- At a symbol that is not in the alphabet. -/
  | unknownSymbol (position : Nat) (symbol : Char)
  /-- At a symbol of the alphabet under which the state has no edge. -/
  | noTransition (position state : Nat) (symbol : Char)
  deriving DecidableEq

/-- The record of a run: what was read, and why nothing more was. -/
structure Trace where
  steps : List Step
  outcome : Outcome
  deriving DecidableEq

/-- Whether the run ended in acceptance. -/
def Trace.isAccepted (t : Trace) : Bool :=
  t.outcome == .accepted

/-- The record of a run over the rest of an input, from a state and after `position` symbols.  The
position is carried along only for the outcome to name it. -/
def traceFrom (dfa : Dfa) (state position : Nat) : List Char → Trace
  | [] => ⟨[], if dfa.isAccepting state then .accepted else .rejected state⟩
  | c :: rest =>
    if !dfa.alphabet.contains c then ⟨[], .unknownSymbol position c⟩
    else
      match dfa.transition state c with
      | none => ⟨[], .noTransition position state c⟩
      | some next =>
        let tail := dfa.traceFrom next (position + 1) rest
        ⟨⟨state, c, next⟩ :: tail.steps, tail.outcome⟩

/-- The record of the run over an input. -/
def trace (dfa : Dfa) (input : List Char) : Trace :=
  dfa.traceFrom dfa.start 0 input

/-- The states that a run went through, the start state first. -/
def statesOf (dfa : Dfa) (t : Trace) : List Nat :=
  dfa.start :: t.steps.map (·.target)

@[simp] theorem acceptsFrom_nil (dfa : Dfa) (state : Nat) :
    dfa.acceptsFrom state [] = dfa.isAccepting state := rfl

theorem acceptsFrom_cons (dfa : Dfa) (state : Nat) (c : Char) (rest : List Char) :
    dfa.acceptsFrom state (c :: rest) =
      match dfa.transition state c with
      | some next => dfa.acceptsFrom next rest
      | none => false := rfl

end PatternAutomata.Dfa
