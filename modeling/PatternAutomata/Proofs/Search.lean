import Mathlib.Logic.Relation
import PatternAutomata.Search

/-!
# What a search finds

A search from some states finds exactly the states that edges lead to from there.  This is the one
fact about searches, `Search.mem_reach`; closures, reachable states and live states are read off
it, and no other proof looks into a search.

## Two halves, two invariants

The two halves of `mem_reach` are kept by different things.  For soundness a state on the list is
one that edges lead to.  For completeness an edge out of a state that was met leads to a state
that was met as well, or to one that is still on the list (`Search.Settled`); at the end nothing
is on the list, so no edge leads out of what was met.

## Searches in any order

The loops with a queue, with a stack or with an order that is left open are not instances of
`Search.reach`, but they keep the same invariant.  `Search.Tracks` is this invariant without the
search: what is met and what is pending, for any edges and any way of holding the two.  A loop
shows that its step is a `Search.Tracks.skip` or a `Search.Tracks.take`, and gets from
`Search.Tracks.iff_of_done` what it has met in the end.  The order in which states are taken does
not occur in it.
-/

namespace PatternAutomata.Search

variable {size : Nat} {next : Nat → List Nat}

/-- An edge that the search follows: it starts in one of the first `size` states.  Edges of other
states are never asked for. -/
def Edge (size : Nat) (next : Nat → List Nat) (s t : Nat) : Prop :=
  s < size ∧ t ∈ next s

/-- Before anything is met, all edges are left. -/
theorem edgesLeft_empty (size : Nat) (next : Nat → List Nat) :
    edgesLeft size next ∅ = ((List.range size).flatMap next).length := by
  induction size with
  | zero => rfl
  | succ size ih =>
      rw [edgesLeft, ih, List.range_succ, List.flatMap_append, List.length_append]
      simp

/-- A state is met only if it was met before or edges lead to it from the list.  No hypothesis is
needed: whatever the search starts from, it invents nothing. -/
theorem reach_sound {seen : StateSet} {pending : List Nat} {s : Nat}
    (h : s ∈ reach size next seen pending) :
    s ∈ seen ∨ ∃ p ∈ pending, Relation.ReflTransGen (Edge size next) p s := by
  fun_induction reach size next seen pending with
  | case1 seen => exact Or.inl h
  | case2 seen p rest _ ih =>
    rcases ih h with hs | ⟨q, hq, path⟩
    · exact Or.inl hs
    · exact Or.inr ⟨q, List.mem_cons_of_mem p hq, path⟩
  | case3 seen p rest _ hp ih =>
    rcases ih h with hs | ⟨q, hq, path⟩
    · rw [Std.ExtTreeSet.mem_insert, Nat.compare_eq_eq] at hs
      rcases hs with rfl | hs
      · exact Or.inr ⟨p, List.mem_cons_self, .refl⟩
      · exact Or.inl hs
    · rcases List.mem_append.1 hq with hq | hq
      · exact Or.inr ⟨p, List.mem_cons_self, .head ⟨hp, hq⟩ path⟩
      · exact Or.inr ⟨q, List.mem_cons_of_mem p hq, path⟩
  | case4 seen p rest _ _ ih =>
    rcases ih h with hs | ⟨q, hq, path⟩
    · rw [Std.ExtTreeSet.mem_insert, Nat.compare_eq_eq] at hs
      rcases hs with rfl | hs
      · exact Or.inr ⟨p, List.mem_cons_self, .refl⟩
      · exact Or.inl hs
    · exact Or.inr ⟨q, List.mem_cons_of_mem p hq, path⟩

/-- A state that is taken off the list is met, and what is put on the list comes on top. -/
theorem mem_insert_or_append {seen : StateSet} {p s : Nat} {rest : List Nat} (more : List Nat)
    (h : s ∈ seen ∨ s ∈ p :: rest) : s ∈ seen.insert p ∨ s ∈ more ++ rest := by
  rw [Std.ExtTreeSet.mem_insert, Nat.compare_eq_eq]
  rcases h with hs | hs
  · exact Or.inl (Or.inr hs)
  · rcases List.mem_cons.1 hs with rfl | hs
    · exact Or.inl (Or.inl rfl)
    · exact Or.inr (List.mem_append_right _ hs)

/-- What was met before and what is on the list is met. -/
theorem mem_reach_of_mem {seen : StateSet} {pending : List Nat} {s : Nat}
    (h : s ∈ seen ∨ s ∈ pending) : s ∈ reach size next seen pending := by
  fun_induction reach size next seen pending with
  | case1 seen => simpa using h
  | case2 seen p rest hp ih =>
    refine ih ?_
    rcases h with hs | hs
    · exact Or.inl hs
    · rcases List.mem_cons.1 hs with rfl | hs
      · exact Or.inl hp
      · exact Or.inr hs
  | case3 seen p rest _ _ ih => exact ih (mem_insert_or_append _ h)
  | case4 seen p rest _ _ ih => exact ih (mem_insert_or_append [] h)

/-- Every edge out of a state that was met leads to a state that was met, or to one that is
still to be looked at. -/
def Settled (size : Nat) (next : Nat → List Nat) (seen : StateSet) (pending : List Nat) :
    Prop :=
  ∀ s ∈ seen, ∀ t, Edge size next s t → t ∈ seen ∨ t ∈ pending

theorem settled_insert {seen : StateSet} {p : Nat} {rest : List Nat} (more : List Nat)
    (h : Settled size next seen (p :: rest))
    (hp : ∀ t, Edge size next p t → t ∈ more) :
    Settled size next (seen.insert p) (more ++ rest) := by
  intro s hs t edge
  rw [Std.ExtTreeSet.mem_insert, Nat.compare_eq_eq] at hs
  rcases hs with rfl | hs
  · exact Or.inr (List.mem_append_left _ (hp t edge))
  · exact mem_insert_or_append more (h s hs t edge)

/-- At the end of a search no edge leads out of the states met, provided that this was so at the
beginning up to what was on the list. -/
theorem reach_closed {seen : StateSet} {pending : List Nat}
    (settled : Settled size next seen pending) {s t : Nat}
    (hs : s ∈ reach size next seen pending) (edge : Edge size next s t) :
    t ∈ reach size next seen pending := by
  fun_induction reach size next seen pending with
  | case1 seen => simpa using settled s hs t edge
  | case2 seen p rest hp ih =>
    refine ih (fun q hq u e => ?_) hs
    rcases settled q hq u e with hu | hu
    · exact Or.inl hu
    · rcases List.mem_cons.1 hu with rfl | hu
      · exact Or.inl hp
      · exact Or.inr hu
  | case3 seen p rest _ _ ih => exact ih (settled_insert _ settled fun _ e => e.2) hs
  | case4 seen p rest _ hp ih =>
    exact ih (settled_insert [] settled fun _ e => absurd e.1 hp) hs

/-- **A search finds a state iff edges lead to it from a starting point.** -/
theorem mem_reach {starts : List Nat} {s : Nat} :
    s ∈ reach size next ∅ starts ↔
      ∃ p ∈ starts, Relation.ReflTransGen (Edge size next) p s := by
  constructor
  · intro h
    exact (reach_sound h).resolve_left Std.ExtTreeSet.not_mem_empty
  · rintro ⟨p, hp, path⟩
    have settled : Settled size next ∅ starts := fun _ hs =>
      absurd hs Std.ExtTreeSet.not_mem_empty
    induction path with
    | refl => exact mem_reach_of_mem (Or.inr hp)
    | tail _ edge ih => exact reach_closed settled ih edge

/-! ### Searches in any order -/

/-- **What holds at every point of a search**: edges lead to what was met and to what is still to
be looked at, the starting points are among it, and no edge leads from what was met to anything
else.  The first field is soundness; the other two make it complete. -/
structure Tracks (edge : Nat → Nat → Prop) (starts : List Nat) (met : Nat → Prop)
    (pending : List Nat) : Prop where
  reached : ∀ t, met t ∨ t ∈ pending → ∃ s ∈ starts, Relation.ReflTransGen edge s t
  covers : ∀ s ∈ starts, met s ∨ s ∈ pending
  settled : ∀ s t, met s → edge s t → met t ∨ t ∈ pending

section

variable {edge : Nat → Nat → Prop} {starts pending rest more : List Nat} {met met' : Nat → Prop}
  {s t : Nat}

/-- Before the search nothing is met. -/
theorem Tracks.begin (none : ∀ t, ¬ met t) : Tracks edge starts met starts where
  reached t h := ⟨t, h.resolve_left (none t), .refl⟩
  covers _ h := .inr h
  settled s _ h := absurd h (none s)

/-- A state that was met before may be passed over. -/
theorem Tracks.skip (tracks : Tracks edge starts met (s :: rest)) (hs : met s) :
    Tracks edge starts met rest := by
  have left : ∀ t, met t ∨ t ∈ s :: rest → met t ∨ t ∈ rest := by
    rintro t (ht | ht)
    · exact .inl ht
    · rcases List.mem_cons.1 ht with rfl | ht
      · exact .inl hs
      · exact .inr ht
  exact ⟨fun t h => tracks.reached t (h.imp_right (List.mem_cons_of_mem s)),
    fun t h => left t (tracks.covers t h), fun s t h e => left t (tracks.settled s t h e)⟩

/-- **A state is met** when all that its edges lead to is met as well or is to be looked at.  The
pending states may be rearranged on this occasion, and those that were met may be left out. -/
theorem Tracks.take (tracks : Tracks edge starts met (s :: rest))
    (met_iff : ∀ t, met' t ↔ t = s ∨ met t) (kept : ∀ t ∈ rest, t ∈ pending)
    (added : ∀ t ∈ pending, t ∈ rest ∨ edge s t)
    (followed : ∀ t, edge s t → met' t ∨ t ∈ pending) : Tracks edge starts met' pending := by
  have here := tracks.reached s (.inr List.mem_cons_self)
  have left : ∀ t, met t ∨ t ∈ s :: rest → met' t ∨ t ∈ pending := by
    rintro t (ht | ht)
    · exact .inl ((met_iff t).2 (.inr ht))
    · exact (List.mem_cons.1 ht).imp (fun e => (met_iff t).2 (.inl e)) (kept t)
  refine ⟨?_, fun t h => left t (tracks.covers t h), fun r t hr e => ?_⟩
  · rintro t (ht | ht)
    · rcases (met_iff t).1 ht with rfl | ht
      · exact here
      · exact tracks.reached t (.inl ht)
    · rcases added t ht with ht | e
      · exact tracks.reached t (.inr (List.mem_cons_of_mem s ht))
      · obtain ⟨p, hp, path⟩ := here
        exact ⟨p, hp, path.tail e⟩
  · rcases (met_iff r).1 hr with rfl | hr
    · exact followed t e
    · exact left t (tracks.settled r t hr e)

/-- **When nothing is left to be looked at**, what was met is what edges lead to. -/
theorem Tracks.iff_of_done (tracks : Tracks edge starts met []) :
    met t ↔ ∃ s ∈ starts, Relation.ReflTransGen edge s t := by
  refine ⟨fun h => tracks.reached t (.inl h), ?_⟩
  rintro ⟨s, hs, path⟩
  induction path with
  | refl => exact (tracks.covers s hs).resolve_right List.not_mem_nil
  | tail _ e ih => exact (tracks.settled _ _ ih e).resolve_right List.not_mem_nil

end

end PatternAutomata.Search
