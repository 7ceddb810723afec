import Mathlib.Data.List.Sort
import PatternAutomata.Nfa.Stored
import PatternAutomata.Proofs.Nfa.Path

/-!
# Runs with stored sets

Whatever store holds the active states, they are the same states.  So a nondeterministic automaton
accepts the same inputs with the sets of every strategy (`Strategy.accepts_eq`).

## From the store upwards

Every operation of a store has one lemma that says what it does to `StateStore.elements`, which is
the set of the states held.  The operations of the automaton are built from those of the store,
and their lemmas are built from these lemmas in the same way; they are simp lemmas, and a proof
about stored sets is finished by them.  Nothing is known of a store but that it is lawful, so a
third store would need no proof here.

In which order the states of a set are gone through is left open: the states that become active
are a union, for which it makes no difference.
-/

namespace PatternAutomata

variable {S : Type} [StateStore S] [LawfulStateStore S]

/-! ### Operations on stored sets -/

namespace StateStore

@[simp] theorem elements_withCapacity (states : Nat) : elements (withCapacity states : S) = ∅ := by
  ext s
  rw [mem_elements, LawfulStateStore.contains_withCapacity]
  simp

@[simp] theorem elements_union (a b : S) : elements (union a b) = elements a ∪ elements b := by
  ext s
  rw [mem_elements, LawfulStateStore.contains_union, Bool.or_eq_true,
    Std.ExtTreeSet.mem_union_iff, mem_elements, mem_elements]

@[simp] theorem elements_singleton (state capacity : Nat) :
    elements (singleton state capacity : S) = .singleton state := by
  rw [singleton, elements_insert, elements_withCapacity]
  rfl

@[simp] theorem elements_ofList (states : List Nat) :
    elements (ofList states : S) = .ofList states := by
  have fold : ∀ (states : List Nat) (a : S) (s : Nat),
      s ∈ elements (states.foldl insert a) ↔ s ∈ elements a ∨ s ∈ states := by
    intro states
    induction states with
    | nil => simp
    | cons state states ih =>
        intro a s
        rw [List.foldl_cons, ih, elements_insert, Std.ExtTreeSet.mem_insert, Nat.compare_eq_eq,
          List.mem_cons, or_comm (a := state = s), or_assoc, eq_comm]
  ext s
  rw [ofList, fold, elements_withCapacity, StateSet.mem_ofList]
  simp

/-- The states come out in the order in which a plain set lists them, which is what mappings and
keys rely on. -/
theorem toList_eq (a : S) : toList a = (elements a).toList := by
  have ascending : (elements a).toList.Pairwise (· < ·) :=
    (elements a).ordered_toList.imp Nat.compare_eq_lt.1
  apply (LawfulStateStore.sorted_toList a).eq_of_mem_iff ascending
  intro s
  rw [Std.ExtTreeSet.mem_toList, mem_elements, LawfulStateStore.mem_toList]

theorem isEmpty_eq (a : S) : isEmpty a = (elements a).isEmpty := by
  rw [Bool.eq_iff_iff, LawfulStateStore.isEmpty_iff, Std.ExtTreeSet.isEmpty_iff,
    Std.ExtTreeSet.eq_empty_iff_forall_not_mem]
  simp only [mem_elements, Bool.not_eq_true]

theorem intersects_eq (a b : S) : intersects a b = (elements a).intersects (elements b) := by
  rw [Bool.eq_iff_iff, LawfulStateStore.intersects_iff, StateSet.intersects_iff]
  simp only [mem_elements]

end StateStore

open StateStore

/-- **A search meets the same states**, whatever store they are held in. -/
theorem Search.elements_collect (size : Nat) (next : Nat → List Nat) (seen : S)
    (pending : List Nat) :
    elements (collect size next seen pending) = reach size next (elements seen) pending := by
  fun_induction collect size next seen pending with
  | case1 seen => rw [reach_nil]
  | case2 seen s rest hs ih => rw [ih, reach, if_pos (mem_elements.2 hs)]
  | case3 seen s rest hs hlt ih =>
      rw [ih, elements_insert, reach, if_neg (mt mem_elements.1 hs), if_pos hlt]
  | case4 seen s rest hs hlt ih =>
      rw [ih, elements_insert, reach, if_neg (mt mem_elements.1 hs), if_neg hlt]

/-! ### Operations on active states -/

namespace Nfa

variable (nfa : Nfa)

@[simp] theorem elements_hold (states : StateSet) : elements (hold S states) = states := by
  ext s
  rw [hold, elements_ofList, StateSet.mem_ofList, Std.ExtTreeSet.mem_toList]

@[simp] theorem elements_closureIn (states : S) :
    elements (nfa.closureIn states) = nfa.closure (elements states) := by
  rw [closureIn, Search.elements_collect, elements_withCapacity, toList_eq]
  rfl

@[simp] theorem elements_initialIn : elements (nfa.initialIn S) = nfa.initial := by
  rw [initialIn, elements_closureIn, elements_singleton]
  rfl

/-- What is met from some states, one after another in any order, is what is met from one of
them. -/
theorem mem_elements_foldl_union {next : Nat → StateSet} {list : List Nat} {reached : S} {t : Nat} :
    t ∈ elements (list.foldl
      (fun reached s => StateStore.union reached (hold S (next s))) reached) ↔
      t ∈ elements reached ∨ ∃ s ∈ list, t ∈ next s := by
  induction list generalizing reached with
  | nil => simp
  | cons s list ih =>
      rw [List.foldl_cons, ih, elements_union, elements_hold, Std.ExtTreeSet.mem_union_iff,
        or_assoc]
      simp [List.mem_cons]

@[simp] theorem elements_moveIn (states : S) (c : Char) :
    elements (nfa.moveIn states c) = nfa.move (elements states) c := by
  ext t
  rw [moveIn, mem_elements_foldl_union, mem_move, elements_withCapacity]
  simp only [Std.ExtTreeSet.not_mem_empty, false_or, LawfulStateStore.mem_toList, mem_elements]

/-- **The same states become active**, whatever store they are held in. -/
@[simp] theorem elements_advanceIn (states : S) (c : Char) :
    elements (nfa.advanceIn states c) = nfa.advance (elements states) c := by
  rw [advanceIn, elements_closureIn, elements_moveIn]
  rfl

theorem elements_foldl_advanceIn (w : List Char) :
    elements (w.foldl nfa.advanceIn (nfa.initialIn S)) = w.foldl nfa.advance nfa.initial := by
  rw [← nfa.elements_initialIn (S := S)]
  generalize nfa.initialIn S = states
  induction w generalizing states with
  | nil => rfl
  | cons c w ih => rw [List.foldl_cons, List.foldl_cons, ih, elements_advanceIn]

@[simp] theorem acceptingIn_eq (active : S) :
    nfa.acceptingIn active = (elements active).intersects nfa.accepting := by
  rw [acceptingIn, intersects_eq, elements_hold]

theorem acceptsFromIn_eq (active : S) (w : List Char) :
    nfa.acceptsFromIn active w = nfa.acceptsFrom (elements active) w := by
  induction w generalizing active with
  | nil => exact nfa.acceptingIn_eq active
  | cons c w ih =>
      rw [acceptsFromIn, acceptsFrom]
      simp only [isEmpty_eq, elements_advanceIn, ih]

theorem acceptsIn_eq (w : List Char) : nfa.acceptsIn S w = nfa.accepts w := by
  rw [acceptsIn, acceptsFromIn_eq, elements_initialIn]
  rfl

end Nfa

/-- **The same inputs are accepted** with the sets of every strategy, and these are those of the
run with plain sets. -/
theorem Strategy.accepts_eq (strategy : Strategy) (nfa : Nfa) (w : List Char) :
    strategy.accepts nfa w = nfa.accepts w :=
  nfa.acceptsIn_eq w

end PatternAutomata
