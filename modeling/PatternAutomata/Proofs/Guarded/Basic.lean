import Mathlib.Data.List.Forall2
import PatternAutomata.Proofs.Error

/-!
# Guarded computations

Where a computation looks something up that is always there, it is written with a default for what
is missing.  In its guarded form it stops instead.  If the two agree, no default is ever used, and
so nothing that is said of the computation is said of a default.

## Two ways to stop

A guarded computation stops because it is refused or because a lookup fails (`Stop`).  The two are
kept apart since a refusal is an answer, which a caller may act on, as the fast paths do when they
are refused (`Guarded.attempt`).  Nothing acts on a lookup that fails: it goes through everything
that is built on it, so that one equation about the outermost function speaks for all lookups
inside.

A computation that looks nothing up is made a guarded one by `Guarded.lift`, and it never stops
out of range (`Guarded.lift_ne_outOfRange`).  To say that the guards of a computation make no
difference is to say that it equals such a one.

## Lists

The lookups are mostly made while a list is worked through.  `Guarded.mapM_eq_ok`,
`Guarded.filterM_eq_ok` and `Guarded.foldlM_eq_ok` say that a list at which no guard stops is
worked through as without guards.  A fold may need to know more than that its steps do not stop,
namely that each leaves the next one something to look up, and so the last of these carries an
invariant.
-/

namespace PatternAutomata

/-- Why a guarded computation stops.  There is no third constructor for a loop that does not end,
since guarded computations are as terminating as those they are compared to. -/
inductive Stop where
  /-- The computation is refused. -/
  | refused (cause : Error)
  /-- Something is looked up that is not there. -/
  | outOfRange

/-- Computations that stop where something is looked up that is not there, instead of going on
with a default. -/
abbrev Guarded (α : Type) := Except Stop α

namespace Guarded

variable {α β : Type}

/-- A computation that may be refused, as a guarded one.  It looks nothing up, so there is nothing
to guard. -/
def lift (x : Except Error α) : Guarded α :=
  x.mapError .refused

/-- What is looked up has to be there. -/
def expect : Option α → Guarded α
  | some a => .ok a
  | none => .error .outOfRange

/-- Something that is looked up is there if this holds.  It guards what is changed in place, where
no value comes out of the lookup. -/
def require (there : Prop) [Decidable there] : Guarded Unit :=
  if there then .ok () else .error .outOfRange

/-- A refusal is passed over, and a lookup that fails is not: else a failure could be mistaken for
a shape that is out of bounds. -/
def attempt : Guarded α → Guarded (Option α)
  | .ok a => .ok (some a)
  | .error (.refused _) => .ok none
  | .error .outOfRange => .error .outOfRange

@[simp] theorem ok_bind (a : α) (f : α → Guarded β) : ((.ok a : Guarded α) >>= f) = f a := rfl

@[simp] theorem lift_ok (a : α) : lift (.ok a) = .ok a := rfl

/-- Guarded computations follow one another as what they are made from.  This brings `lift` to the
outside, where equations about whole functions have it. -/
theorem lift_bind (x : Except Error α) (f : α → Except Error β) :
    lift (x >>= f) = lift x >>= fun a => lift (f a) := by
  cases x with
  | ok a => rfl
  | error e => rfl

/-- A computation that may be refused is never stopped out of range.  Of what equals a lifted
computation, this is all that remains to be said. -/
theorem lift_ne_outOfRange (x : Except Error α) : lift x ≠ .error .outOfRange := by
  cases x with
  | ok a => nofun
  | error e => nofun

theorem attempt_lift (x : Except Error α) : attempt (lift x) = .ok x.toOption := by
  cases x with
  | ok a => rfl
  | error e => rfl

@[simp] theorem expect_some (a : α) : expect (some a) = .ok a := rfl

theorem require_of {there : Prop} [Decidable there] (h : there) : require there = .ok () :=
  if_pos h

/-- An index below the size of an array is there. -/
theorem expect_getElem? {entries : Array α} {i : Nat} (h : i < entries.size) (a : α) :
    expect entries[i]? = .ok (entries.getD i a) := by
  rw [Array.getD_eq_getD_getElem?, Array.getElem?_eq_getElem h]
  rfl

/-! ### Lists -/

theorem mapM_eq_ok_of_forall₂ {f : α → Guarded β} {list : List α} {results : List β}
    (h : List.Forall₂ (fun a b => f a = .ok b) list results) : list.mapM f = .ok results := by
  induction h with
  | nil => rfl
  | cons head _ ih =>
      rw [List.mapM_cons, head, ok_bind, ih]
      rfl

theorem mapM_eq_ok {f : α → Guarded β} {g : α → β} {list : List α}
    (h : ∀ a ∈ list, f a = .ok (g a)) : list.mapM f = .ok (list.map g) :=
  mapM_eq_ok_of_forall₂ (List.forall₂_map_right_iff.2 (List.forall₂_same.2 h))

theorem forM_eq_ok {f : α → Guarded Unit} {list : List α} (h : ∀ a ∈ list, f a = .ok ()) :
    list.forM f = .ok () := by
  induction list with
  | nil => rfl
  | cons a list ih =>
      rw [List.forM, h a List.mem_cons_self]
      exact ih fun b hb => h b (List.mem_cons_of_mem _ hb)

theorem filterM_eq_ok {f : α → Guarded Bool} {g : α → Bool} {list : List α}
    (h : ∀ a ∈ list, f a = .ok (g a)) : list.filterM f = .ok (list.filter g) := by
  have aux : ∀ (list kept : List α), (∀ a ∈ list, f a = .ok (g a)) →
      list.filterAuxM f kept = .ok ((list.filter g).reverse ++ kept) := by
    intro list
    induction list with
    | nil => exact fun _ _ => rfl
    | cons a list ih =>
        intro kept h
        rw [List.filterAuxM, h a List.mem_cons_self, ok_bind,
          ih _ fun b hb => h b (List.mem_cons_of_mem _ hb)]
        cases hg : g a with
        | true => simp [hg]
        | false => simp [hg]
  rw [List.filterM, aux list [] h, ok_bind]
  simp
  rfl

/-- A fold that no guard stops keeps whatever its steps keep.  The two are proved together, as the
reason why a step is not stopped is often what the step before it has kept. -/
theorem foldlM_eq_ok {f : β → α → Guarded β} {g : β → α → β} (kept : β → Prop) {list : List α}
    (h : ∀ b, kept b → ∀ a ∈ list, f b a = .ok (g b a) ∧ kept (g b a)) {b : β} (hb : kept b) :
    list.foldlM f b = .ok (list.foldl g b) := by
  induction list generalizing b with
  | nil => rfl
  | cons a list ih =>
      obtain ⟨hstep, hkept⟩ := h b hb a List.mem_cons_self
      rw [List.foldlM_cons, hstep]
      exact ih (fun b hb a ha => h b hb a (List.mem_cons_of_mem _ ha)) hkept

end Guarded

end PatternAutomata
