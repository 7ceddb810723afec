import PatternAutomata.Dfa.Completion

/-!
# Changing an automaton in place

The steps in which a deterministic automaton is built, on one automaton that each of them changes.
Elsewhere in the library a step makes a new automaton and leaves the old one alone, so a step that
is refused cannot do harm.  Here it could: an `Edit` is a computation with a state *and* with
refusals, and what a step has changed before it is refused stays changed.  `Edit.runOn` gives back
both, what came of the step and the automaton as it is left.

## In which order things change

An edge is filed in three changes (`Edit.file`): its symbol joins the alphabet, then the state
that it leaves gets it, and then the state that it enters.  Nothing is changed before it is known
that the edge may be added.  Completion (`Edit.complete`) is longer; it adds a state before it
adds the first edge, and a refusal among the edges would leave the state behind.

## What may be asked for

A `Request` is one step, and `Dfa.after` is the automaton after any number of them, granted or
refused, so statements about it are about every history that an automaton can have.  There is one
condition: a start state has to be there when it is named (`Request.Legal`).  This is left to
whoever asks, and it is all that is.
-/

namespace PatternAutomata.Dfa

/-- Steps on an automaton that is changed in place.  The refusals lie on top of the state, so the
changes that were made before a refusal are kept. -/
abbrev Edit (α : Type) := ExceptT Error (StateM Dfa) α

namespace Edit

/-- What comes of a step, and the automaton as it is left, whether or not the step was granted. -/
def runOn {α : Type} (edit : Edit α) (dfa : Dfa) : Except Error α × Dfa :=
  edit.run.run dfa

/-- Adds a state, and tells its number. -/
def addState (accepting : Bool) : Edit Nat := do
  let dfa ← get
  set (dfa.addState accepting)
  return dfa.numStates

/-- Files an edge, in three changes.  Between them the two files of the edges are out of step. -/
def file (source : Nat) (c : Char) (target : Nat) : Edit Unit := do
  modify fun dfa => { dfa with alphabet := dfa.alphabet.insert c }
  modify fun dfa => { dfa with
    states := dfa.states.modify source fun s => { s with moves := s.moves.insert c target } }
  modify fun dfa => { dfa with
    states := dfa.states.modify target fun s =>
      { s with sources := s.sources.insert c (source :: s.sources[c]?.getD []) } }

/-- Adds an edge, after it is known that it may be added. -/
def addTransition (source : Nat) (c : Char) (target : Nat) : Edit Unit := do
  let dfa ← get
  if dfa.numStates ≤ source ∨ dfa.numStates ≤ target then
    throw (.breached (.looseEdge source c target))
  else
    match dfa.transition source c with
    | some present =>
      if present = target then return ()
      else throw (.breached (.secondTarget source c present target))
    | none => file source c target

/-- Makes every edge exist.  Where one is missing, a dead state is added, with its loops first and
then the missing edges. -/
def complete : Edit (Option Nat) := do
  let dfa ← get
  match dfa.missing with
  | [] => return none
  | gaps =>
    let dead ← addState false
    dfa.alphabet.toList.forM fun c => addTransition dead c dead
    gaps.forM fun gap => addTransition gap.1 gap.2 dead
    return some dead

end Edit

/-- What may be asked for of an automaton that is changed in place. -/
inductive Request where
  /-- One more state. -/
  | addState (accepting : Bool)
  /-- Another start state. -/
  | setStart (state : Nat)
  /-- An edge. -/
  | addTransition (source : Nat) (c : Char) (target : Nat)
  /-- What the states stand for. -/
  | setMapping (mapping : Std.ExtTreeMap Nat (List Nat))
  /-- That every edge exist. -/
  | complete

namespace Request

/-- The step that was asked for. -/
def edit : Request → Edit Unit
  | addState accepting => do let _ ← Edit.addState accepting
  | setStart state => modify fun dfa => dfa.setStart state
  | addTransition source c target => Edit.addTransition source c target
  | setMapping mapping => modify fun dfa => dfa.setMapping mapping
  | complete => do let _ ← Edit.complete

/-- Whether a request may be made: a start state has to be there. -/
def Legal (dfa : Dfa) : Request → Prop
  | setStart state => state < dfa.numStates
  | _ => True

instance (dfa : Dfa) : ∀ request : Request, Decidable (request.Legal dfa)
  | setStart state => inferInstanceAs (Decidable (state < dfa.numStates))
  | addState _ => instDecidableTrue
  | addTransition _ _ _ => instDecidableTrue
  | setMapping _ => instDecidableTrue
  | complete => instDecidableTrue

end Request

/-- **The automaton after some requests**, one after another, whatever comes of each. -/
def after (dfa : Dfa) : List Request → Dfa
  | [] => dfa
  | request :: rest => (request.edit.runOn dfa).2.after rest

/-- Every request may be made when its turn comes.  Whether it may depends on the requests before,
refused ones among them, so this runs along with them. -/
def AllLegal (dfa : Dfa) : List Request → Prop
  | [] => True
  | request :: rest => request.Legal dfa ∧ (request.edit.runOn dfa).2.AllLegal rest

instance decidableAllLegal : ∀ (dfa : Dfa) (requests : List Request),
    Decidable (dfa.AllLegal requests)
  | _, [] => instDecidableTrue
  | dfa, request :: rest =>
      have := decidableAllLegal (request.edit.runOn dfa).2 rest
      inferInstanceAs (Decidable (_ ∧ _))

end PatternAutomata.Dfa
