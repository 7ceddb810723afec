import PatternAutomata.Dfa.Basic

/-!
# Breadth-first numbering

A deterministic automaton is often given only by a start and by what follows from what: sets of
states that are active together, or blocks of states that behave alike.  A `TransitionSystem` is
such a presentation, and `TransitionSystem.survey` finds everything that can be met from the start
and numbers it in the order of discovery.  The powerset construction and the quotient of
minimization are surveys of two different systems, so whatever is proved of numbering is proved
once for both.

## No queue

Points are settled in the order in which they were found.  So the points that still have to be
looked at are those whose numbers come after the settled ones, and no queue is kept apart: the
next point is `found[rows.size]`.  The edges of a point are followed in the order in which the
system lists them, and new points get the next numbers as they come up, which is breadth-first
order.

## The limit

A limit bounds the points, and with them the rounds, since every round settles one point.  So the
recursion is on the limit, and a survey that ends for want of rounds cannot occur.  A survey that
would need a point too many has no result at all.

## Keys

A point is known by its key, a list of numbers.  Points with the same key are the same as far as a
survey can tell, so what is proved of surveys asks for keys that tell different points apart.
-/

namespace PatternAutomata

/-- A start and the labelled edges that leave each point.  Points with the same key are the same.
There may be infinitely many points; a survey only ever meets finitely many of them. -/
structure TransitionSystem (σ : Type) where
  /-- The point that is found first. -/
  start : σ
  /-- The edges that leave a point, in the order in which they are followed. -/
  edges : σ → List (Char × σ)
  /-- What a point is known by. -/
  key : σ → List Nat

/-- What is known of a transition system.  There is a row for each settled point, and the settled
points are the first of those found. -/
structure Survey (σ : Type) where
  /-- The points found, by number. -/
  found : Array σ
  /-- The numbers of the points found, by key. -/
  numbers : Std.ExtTreeMap (List Nat) Nat
  /-- The edges of the points that are settled, by number. -/
  rows : Array (List (Char × Nat))

namespace Survey

variable {σ : Type}

/-- Nothing is known. -/
def empty : Survey σ := ⟨#[], ∅, #[]⟩

/-- The number of a point.  A new point gets the next number, unless the limit is reached
already. -/
def number (key : σ → List Nat) (limit : Nat) (survey : Survey σ) (point : σ) :
    Option (Nat × Survey σ) :=
  let k := key point
  match survey.numbers[k]? with
  | some n => some (n, survey)
  | none =>
    let n := survey.found.size
    if n < limit then
      some (n, { survey with
        found := survey.found.push point, numbers := survey.numbers.insert k n })
    else none

/-- The edges of a point with the numbers of their targets.  Targets that are new are numbered on
the way, in the order of the edges. -/
def row (key : σ → List Nat) (limit : Nat) (survey : Survey σ) :
    List (Char × σ) → Option (List (Char × Nat) × Survey σ)
  | [] => some ([], survey)
  | (c, target) :: rest =>
    match survey.number key limit target with
    | none => none
    | some (n, survey) =>
      match survey.row key limit rest with
      | none => none
      | some (tail, survey) => some ((c, n) :: tail, survey)

end Survey

namespace TransitionSystem

variable {σ : Type}

/-- Settles up to `rounds` more points.  Where all points found are settled, the rest of the
rounds is left unused. -/
def settle (system : TransitionSystem σ) (limit : Nat) :
    Nat → Survey σ → Option (Survey σ)
  | 0, survey => some survey
  | rounds + 1, survey =>
    match survey.found[survey.rows.size]? with
    | none => some survey
    | some point =>
      match survey.row system.key limit (system.edges point) with
      | none => none
      | some (row, survey) =>
        system.settle limit rounds { survey with rows := survey.rows.push row }

/-- Everything that can be met from the start, unless it is more than `limit` points.  Each round
settles one point and there are at most `limit` of them, so `limit` rounds are always enough. -/
def survey (system : TransitionSystem σ) (limit : Nat) : Option (Survey σ) :=
  match Survey.empty.number system.key limit system.start with
  | none => none
  | some (_, survey) => system.settle limit limit survey

end TransitionSystem

end PatternAutomata
