import PatternAutomata.Error

/-!
# Computations that may be refused

A computation that may be refused has a result or the cause of the refusal.  Most of what is
proved about patterns and automata is proved up to refusals of some kind, and which kind decides
how strong a statement is.  So the causes are a parameter `E` of the three notions here.

* `Error.Yields E x P`: a result of `x` has the property `P`, and a refusal is for one of the
  causes `E`.  With no causes at all this says that there is a result; with the ceilings, that
  only a bound can be in the way; with all causes, that results are right.
* `Error.Upto E x y`: the outcome of `x` is that of `y`, unless `x` is refused for one of the
  causes `E`.  Two computations are compared like this when they make the same choices but one of
  them has less room.
* `Error.RefusedOnly E x`: `x` is refused for no other causes, whatever comes of it else.

Each of them goes through `bind` and through `foldlM`, so a proof about a long computation has one
step for each of its parts.

## Causes of two kinds

`Error.IsCeiling` tells them apart.  Some causes say that a text or a request is faulty, and then
no configuration helps; the others say that a ceiling was too low, and a higher one gives a
result.
-/

namespace PatternAutomata.Error

variable {α β : Type}

@[simp] theorem ok_bind (a : α) (f : α → Except Error β) : (Except.ok a >>= f) = f a := rfl

@[simp] theorem error_bind (e : Error) (f : α → Except Error β) :
    ((Except.error e : Except Error α) >>= f) = .error e := rfl

/-- Two computations in turn have a result iff both have.  A long computation with a result is
taken apart by this, from the front. -/
theorem bind_eq_ok_iff {x : Except Error α} {f : α → Except Error β} {b : β} :
    (x >>= f) = .ok b ↔ ∃ a, x = .ok a ∧ f a = .ok b := by
  cases x with
  | ok a => simp
  | error e => simp

/-- A check decides whether there is a result, and not which. -/
theorem eq_of_check {x : Except Error α} {a b : β} (h : (x >>= fun _ => pure a) = .ok b) :
    a = b := by
  obtain ⟨_, -, h⟩ := bind_eq_ok_iff.1 h
  exact Except.ok.inj h

theorem exists_ok_of_isSome {x : Except Error α} (h : x.toOption.isSome = true) :
    ∃ a, x = .ok a := by
  cases x with
  | ok a => exact ⟨a, rfl⟩
  | error e => cases h

/-- The causes that a higher ceiling takes away.  The capacity of dense sets counts as one,
although it is not configured: another way of holding sets takes it away. -/
def IsCeiling : Error → Prop
  | stateLimitExceeded _ _ => True
  | capacityExceeded _ _ => True
  | malformed _ _ => False
  | breached _ => False

/-- `Yields E x P`: the computation `x` has a result with the property `P`, unless it is refused
for one of the causes `E`.  A refusal for another cause makes this false, so with few causes it is
a statement about success. -/
def Yields (E : Error → Prop) (x : Except Error α) (P : α → Prop) : Prop :=
  match x with
  | .ok a => P a
  | .error e => E e

namespace Yields

variable {E : Error → Prop} {x : Except Error α} {P : α → Prop}

theorem ok {a : α} (h : P a) : Yields E (.ok a) P := h

theorem mono {Q : α → Prop} (h : Yields E x P) (himp : ∀ a, P a → Q a) : Yields E x Q := by
  cases x with
  | ok a => exact himp a h
  | error e => exact h

/-- More causes may be let pass. -/
theorem weaken {E' : Error → Prop} (h : Yields E x P) (himp : ∀ e, E e → E' e) :
    Yields E' x P := by
  cases x with
  | ok a => exact h
  | error e => exact himp e h

/-- A result is the result: besides its property, it is known where it came from. -/
theorem self (h : Yields E x P) : Yields E x fun a => P a ∧ x = .ok a := by
  cases x with
  | ok a => exact ⟨h, rfl⟩
  | error e => exact h

/-- Results in turn. -/
theorem bind {f : α → Except Error β} {Q : β → Prop} (h : Yields E x P)
    (hf : ∀ a, P a → Yields E (f a) Q) : Yields E (x >>= f) Q := by
  cases x with
  | ok a => exact hf a h
  | error e => exact h

/-- What every step keeps is kept by a list of steps, with the same causes let pass. -/
theorem foldlM {f : β → α → Except Error β} {Q : β → Prop}
    (hf : ∀ b a, Q b → Yields E (f b a) Q) (list : List α) {b : β} (hb : Q b) :
    Yields E (list.foldlM f b) Q := by
  induction list generalizing b with
  | nil => exact .ok hb
  | cons a list ih =>
      rw [List.foldlM_cons]
      exact (hf b a hb).bind fun b' hb' => ih hb'

/-- Where all causes may be let pass, only results count, and nothing has to be said about
refusals. -/
theorem of_ok (hall : ∀ e, E e) (h : ∀ a, x = .ok a → P a) : Yields E x P := by
  cases x with
  | ok a => exact h a rfl
  | error e => exact hall e

end Yields

/-- `Upto E x y`: the computation `x` has the outcome of `y`, unless it is refused for one of the
causes `E`.  The two sides are not alike: `y` may have a result where `x` is refused. -/
def Upto (E : Error → Prop) (x y : Except Error α) : Prop :=
  x = y ∨ ∃ e, x = .error e ∧ E e

namespace Upto

variable {E : Error → Prop}

theorem refl (x : Except Error α) : Upto E x x := .inl rfl

theorem error {e : Error} (h : E e) (y : Except Error α) : Upto E (.error e) y := .inr ⟨e, rfl, h⟩

/-- A result is the same. -/
theorem eq_ok {x y : Except Error α} (h : Upto E x y) {a : α} (hok : x = .ok a) : y = .ok a := by
  rcases h with rfl | ⟨e, rfl, -⟩
  · exact hok
  · cases hok

/-- One computation after another, in step. -/
theorem bind {x y : Except Error α} {f g : α → Except Error β} (h : Upto E x y)
    (hfg : ∀ a, Upto E (f a) (g a)) : Upto E (x >>= f) (y >>= g) := by
  rcases h with rfl | ⟨e, rfl, he⟩
  · cases x with
    | ok a => exact hfg a
    | error e => exact .refl _
  · exact .error he _

/-- A list is worked through in step. -/
theorem foldlM {f g : β → α → Except Error β} (hfg : ∀ b a, Upto E (f b a) (g b a))
    (list : List α) (b : β) : Upto E (list.foldlM f b) (list.foldlM g b) := by
  induction list generalizing b with
  | nil => exact .refl _
  | cons a list ih =>
      rw [List.foldlM_cons, List.foldlM_cons]
      exact (hfg b a).bind ih

end Upto

/-- `RefusedOnly E x`: the computation `x` is refused for the causes `E` and no others.  Nothing
is said of a result. -/
def RefusedOnly (E : Error → Prop) (x : Except Error α) : Prop :=
  ∀ e, x = .error e → E e

namespace RefusedOnly

variable {E : Error → Prop} {x y : Except Error α}

theorem ok (a : α) : RefusedOnly E (.ok a) := nofun

theorem error {e : Error} (h : E e) : RefusedOnly E (.error e : Except Error α) := by
  intro e' he
  cases he
  exact h

/-- More causes may be named. -/
theorem weaken {E' : Error → Prop} (h : RefusedOnly E x) (himp : ∀ e, E e → E' e) :
    RefusedOnly E' x :=
  fun e he => himp e (h e he)

/-- No other causes have to be let pass: what is known of results up to many causes is known up to
the few that occur. -/
theorem yields {E' : Error → Prop} {P : α → Prop} (h : RefusedOnly E x) (hx : Yields E' x P) :
    Yields E x P := by
  cases x with
  | ok a => exact hx
  | error e => exact h e rfl

theorem ite {p : Prop} [Decidable p] (hx : RefusedOnly E x) (hy : RefusedOnly E y) :
    RefusedOnly E (if p then x else y) := by
  by_cases hp : p
  · rwa [if_pos hp]
  · rwa [if_neg hp]

/-- One computation after another. -/
theorem bind {f : α → Except Error β} (h : RefusedOnly E x)
    (hf : ∀ a, x = .ok a → RefusedOnly E (f a)) : RefusedOnly E (x >>= f) := by
  cases x with
  | ok a => exact hf a rfl
  | error e => exact .error (h e rfl)

/-- A list is worked through. -/
theorem foldlM {f : β → α → Except Error β} (hf : ∀ b a, RefusedOnly E (f b a)) (list : List α)
    (b : β) : RefusedOnly E (list.foldlM f b) := by
  induction list generalizing b with
  | nil => exact .ok b
  | cons a list ih =>
      rw [List.foldlM_cons]
      exact (hf b a).bind fun b _ => ih b

end RefusedOnly

end PatternAutomata.Error
