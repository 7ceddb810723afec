import PatternAutomata.Proofs.Pattern.Soundness

/-!
# What is in the grammar is read

A text that is derived in the grammar is read, unless a ceiling is too low, and the tree that
comes of it is what the derivation denotes, whatever derivation it is (`Assembly.run_yields`).

## Which causes are let pass is left open

With all of them the statements say that what is read is what any derivation of the text denotes,
and unambiguity of the trees comes for free.  With the ceilings alone they say that there are no
other reasons to refuse a text, and with no causes at all that a text is read.  The causes that
are let pass are called `E` throughout, and each rule has as a hypothesis that `E` has the causes
that may arise from it.

## No operator asks for more states than the whole has

So the causes that have to be let pass are known from the tree of the whole text
(`Ceiling.Hinders`).  What hinders an operand hinders the result, which passes the hypothesis on
from a derivation to its parts.  A leaf asks for nothing, so they are none if the whole is a leaf.

## Along the grammar

`Assembly.Takes` says for each category what becomes of an assembly that takes in a text of it: an
atom becomes the last factor, factors an alternative whose last factor is open, an expression the
whole of a group.  The last factor stays open because a sign of repetition may follow.  There is
one lemma for each rule of the grammar, and `Assembly.takes` puts them together by induction over
the derivation.

## The depth of groups

The check of the depth goes through the same tokens before anything is read.  On a derived text it
finds the first group that lies too deep (`Assembly.checkDepth_text`), and there is one just when
the derivation is too deep.
-/

namespace PatternAutomata

open Regex (Sized)
open Error (Yields IsCeiling)

/-! ### Refusals of operators -/

/-- `ceiling.Refuses n e`: the cause `e` is that a number of states up to `n` is beyond one of the
bounds.  The bound is that of the ceiling, and the number is really beyond it. -/
def Ceiling.Refuses (ceiling : Ceiling) (n : Nat) : Error → Prop
  | .stateLimitExceeded states max => max = ceiling.maxStates ∧ max < states ∧ states ≤ n
  | .capacityExceeded capacity requested =>
    ceiling.strategy.maxStates? = some capacity ∧ capacity < requested ∧ requested ≤ n
  | .malformed _ _ => False
  | .breached _ => False

/-- A tree that is put together by an operator.  Leaves are made without asking for states. -/
def Regex.IsOperator : Regex → Prop
  | empty => False
  | oneOf _ => False
  | union _ _ => True
  | concat _ _ => True
  | star _ => True
  | plus _ => True
  | optional _ => True

theorem Regex.isOperator_repeated (sign : Quantifier) (r : Regex) :
    (r.repeated sign).IsOperator := by
  cases sign <;> trivial

namespace Ceiling

variable {ceiling : Ceiling}

theorem Refuses.mono {n m : Nat} {e : Error} (h : ceiling.Refuses n e) (hle : n ≤ m) :
    ceiling.Refuses m e := by
  cases e with
  | stateLimitExceeded states max => exact ⟨h.1, h.2.1, Nat.le_trans h.2.2 hle⟩
  | capacityExceeded capacity requested => exact ⟨h.1, h.2.1, Nat.le_trans h.2.2 hle⟩
  | malformed fault offset => exact h
  | breached breach => exact h

theorem Refuses.isCeiling {n : Nat} {e : Error} (h : ceiling.Refuses n e) : e.IsCeiling := by
  cases e with
  | stateLimitExceeded states max => trivial
  | capacityExceeded capacity requested => trivial
  | malformed fault offset => exact h
  | breached breach => exact h

/-- **What a refusal says.**  A number of states is named, which is beyond the bound that is named
with it, and no more than `n`.  Of the capacity only dense sets speak. -/
theorem Refuses.cases {config : Config} {strategy : Strategy} {n : Nat} {error : Error}
    (h : (⟨config.maxNfaStates, strategy⟩ : Ceiling).Refuses n error) :
    (∃ states, error = .stateLimitExceeded states config.maxNfaStates ∧
      config.maxNfaStates < states ∧ states ≤ n) ∨
    (strategy = .bit ∧ ∃ requested, error = .capacityExceeded DenseSet.capacity requested ∧
      DenseSet.capacity < requested ∧ requested ≤ n) := by
  cases error with
  | stateLimitExceeded states max =>
      obtain ⟨rfl, hbounds⟩ := h
      exact .inl ⟨states, rfl, hbounds⟩
  | capacityExceeded capacity requested =>
      obtain ⟨hcapacity, hbounds⟩ := h
      cases strategy with
      | hash => cases hcapacity
      | bit =>
          cases hcapacity
          exact .inr ⟨rfl, requested, rfl, hbounds⟩
  | malformed fault offset => exact absurd h id
  | breached breach => exact absurd h id

/-- `ceiling.Hinders r e`: the tree `r` is put together by an operator, and the cause `e` is that
a number of states up to that of `r` is beyond one of the bounds. -/
def Hinders (ceiling : Ceiling) (r : Regex) (e : Error) : Prop :=
  r.IsOperator ∧ ceiling.Refuses r.states e

namespace Hinders

variable {l r : Regex} {e : Error}

/-! No operand has more states than the result, so what hinders an operand hinders the result. -/

theorem union_left (h : ceiling.Hinders l e) : ceiling.Hinders (.union l r) e :=
  ⟨trivial, h.2.mono (by rw [Regex.states]; omega)⟩

theorem union_right (h : ceiling.Hinders r e) : ceiling.Hinders (.union l r) e :=
  ⟨trivial, h.2.mono (by rw [Regex.states]; omega)⟩

theorem concat_left (h : ceiling.Hinders l e) : ceiling.Hinders (.concat l r) e :=
  ⟨trivial, h.2.mono (by rw [Regex.states]; omega)⟩

theorem concat_right (h : ceiling.Hinders r e) : ceiling.Hinders (.concat l r) e :=
  ⟨trivial, h.2.mono (by rw [Regex.states]; omega)⟩

theorem repeated {sign : Quantifier} (h : ceiling.Hinders r e) :
    ceiling.Hinders (r.repeated sign) e := by
  refine ⟨r.isOperator_repeated sign, h.2.mono ?_⟩
  cases sign <;> simp only [Regex.repeated, Regex.states] <;> omega

end Hinders

theorem reserve_yields (states : Nat) :
    Yields (ceiling.Refuses states) (ceiling.reserve states) fun _ => True := by
  rw [reserve]
  split
  · rename_i hlt
    exact ⟨rfl, hlt, Nat.le_refl _⟩
  · exact .ok trivial

/-- Requests are refused for the capacity, and the greatest of them bounds what is refused. -/
theorem checkAll_yields {n : Nat} {requests : List Nat} (h : ∀ request ∈ requests, request ≤ n) :
    Yields (ceiling.Refuses n) (ceiling.strategy.checkAll requests) fun _ => True := by
  induction requests with
  | nil => exact .ok trivial
  | cons requested rest ih =>
      have hcheck : Yields (ceiling.Refuses n) (ceiling.strategy.check requested)
          fun _ => True := by
        rw [Strategy.check]
        split
        · exact .ok trivial
        · rename_i capacity hcapacity
          split
          · exact .ok trivial
          · rename_i hlt
            exact ⟨hcapacity, Nat.lt_of_not_le hlt, h requested (by simp)⟩
      rw [Strategy.checkAll_cons]
      exact hcheck.bind fun _ _ => ih fun request hrequest =>
        h request (List.mem_cons_of_mem _ hrequest)

theorem union_yields (l r : Sized) :
    Yields (ceiling.Hinders (l.union r).regex) (ceiling.union l r) (· = l.union r) := by
  refine Yields.weaken ?_ fun _ refuses => ⟨trivial, refuses⟩
  rw [← (l.union r).states_eq]
  refine (reserve_yields _).bind fun _ _ => ?_
  refine (checkAll_yields ?_).bind fun _ _ => .ok rfl
  simp only [List.forall_mem_cons, Sized.union]
  exact ⟨by omega, by omega, by omega, by omega, by simp⟩

theorem concat_yields (l r : Sized) :
    Yields (ceiling.Hinders (l.concat r).regex) (ceiling.concat l r) (· = l.concat r) := by
  refine Yields.weaken ?_ fun _ refuses => ⟨trivial, refuses⟩
  rw [← (l.concat r).states_eq]
  refine (reserve_yields _).bind fun _ _ => ?_
  refine (checkAll_yields ?_).bind fun _ _ => .ok rfl
  simp only [List.forall_mem_cons, Sized.concat]
  exact ⟨by omega, by omega, by simp⟩

theorem repeated_yields (sign : Quantifier) (r : Sized) :
    Yields (ceiling.Hinders (r.repeated sign).regex) (ceiling.repeated sign r)
      (· = r.repeated sign) := by
  refine Yields.weaken ?_ fun _ refuses => ⟨r.regex.isOperator_repeated sign, refuses⟩
  rw [← (r.repeated sign).states_eq]
  refine (reserve_yields _).bind fun _ _ => ?_
  have around : ∀ n, r.states + 2 ≤ n → ∀ request ∈ [1, 1 + r.states, 1 + r.states + 1],
      request ≤ n := by
    intro n hn
    simp only [List.forall_mem_cons]
    exact ⟨by omega, by omega, by omega, by simp⟩
  cases sign with
  | star =>
      refine (checkAll_yields (around _ ?_)).bind fun _ _ => .ok rfl
      simp [Sized.repeated, Sized.statesAfter]
  | optional =>
      refine (checkAll_yields (around _ ?_)).bind fun _ _ => .ok rfl
      simp [Sized.repeated, Sized.statesAfter]
  | plus =>
      have hplus : Yields (ceiling.Refuses (r.repeated .plus).states)
          (ceiling.strategy.checkPlus r.states) fun _ => True := by
        refine (checkAll_yields (around _ ?_)).bind fun _ _ => checkAll_yields ?_
        · simp only [Sized.repeated, Sized.statesAfter]
          omega
        · simp only [List.forall_mem_cons, Sized.repeated, Sized.statesAfter]
          exact ⟨by omega, by omega, by simp⟩
      exact hplus.bind fun _ _ => .ok rfl

end Ceiling

/-! ### Levels -/

namespace Level

variable {ceiling : Ceiling} {level next : Level}

/-- What the present alternative of a level denotes, with its last factor joined if there is one. -/
def present (level : Level) : Regex :=
  match level.front, level.last with
  | none, none => .empty
  | none, some factor => factor.regex
  | some front, none => front.regex
  | some front, some factor => .concat front.regex factor.regex

/-- What a level denotes, were it closed now. -/
def regex (level : Level) : Regex :=
  match level.alternatives with
  | none => level.present
  | some before => .union before.regex level.present

theorem join_yields (ceiling : Ceiling) (level : Level) :
    Yields (ceiling.Hinders level.present) (level.join ceiling) fun next =>
      next.alternatives = level.alternatives ∧ next.last = none ∧
        next.present = level.present ∧ (level.last ≠ none → next.front ≠ none) := by
  obtain ⟨alternatives, front, last⟩ := level
  cases last with
  | none => exact .ok ⟨rfl, rfl, rfl, fun h => absurd rfl h⟩
  | some factor =>
      cases front with
      | none => exact .ok ⟨rfl, rfl, rfl, by simp⟩
      | some front =>
          refine (Ceiling.concat_yields front factor).bind ?_
          rintro joined rfl
          exact .ok ⟨rfl, rfl, rfl, by simp⟩

/-- What hinders the present alternative hinders the level, as the level has no fewer states. -/
theorem hinders_of_present {e : Error} (h : ceiling.Hinders level.present e) :
    ceiling.Hinders level.regex e := by
  rw [regex]
  cases level.alternatives with
  | none => exact h
  | some before => exact h.union_right

/-- **A level is closed to what it denotes**, or an operator is refused that it is put together
by. -/
theorem close_yields (ceiling : Ceiling) (level : Level) :
    Yields (ceiling.Hinders level.regex) (level.close ceiling) fun whole =>
      whole.regex = level.regex := by
  refine ((level.join_yields ceiling).weaken fun _ => hinders_of_present).bind ?_
  rintro next ⟨halternatives, hlast, hpresent, _⟩
  have hfront : (next.front.getD .empty).regex = level.present := by
    rw [← hpresent, present, hlast]
    cases next.front <;> rfl
  rw [regex, ← halternatives]
  cases next.alternatives with
  | none => exact .ok hfront
  | some before =>
      have hunion : (before.union (next.front.getD .empty)).regex =
          .union before.regex level.present := by
        rw [← hfront]
        rfl
      have hyields : Yields _ (ceiling.union before (next.front.getD .empty)) _ :=
        Ceiling.union_yields before (next.front.getD .empty)
      rw [hunion] at hyields
      refine hyields.mono ?_
      rintro whole rfl
      exact hunion

end Level

/-! ### Taking in a text -/

namespace Assembly

variable (E : Error → Prop) (config : Config) (ceiling : Ceiling)

/-- Takes in the tokens of a text that stands at `offset`. -/
def take (a : Assembly) (offset : Nat) (text : List Char) : Except Error Assembly :=
  (Token.scan offset text).foldlM (step config ceiling) a

/-- A factor is put behind what has been read, as the last factor, where that can be joined.  The
hypothesis says that joining is refused for one of the causes at most. -/
def TakesFactor (text : List Char) (r : Regex) : Prop :=
  ∀ (a : Assembly) (offset : Nat), Yields E (a.level.join ceiling) (fun _ => True) →
    Yields E (take config ceiling a offset text) fun next =>
      ∃ level s, a.level.join ceiling = .ok level ∧ s.regex = r ∧
        next = ⟨{ level with last := some s }, a.outer⟩

/-- Factors begin an alternative and leave their last one open, for a sign of repetition that may
follow. -/
def TakesFactors (text : List Char) (r : Regex) : Prop :=
  ∀ (alternatives : Option Sized) (outer : List (Nat × Level)) (offset : Nat),
    Yields E (take config ceiling ⟨⟨alternatives, none, none⟩, outer⟩ offset text) fun next =>
      ∃ front last, next = ⟨⟨alternatives, front, some last⟩, outer⟩ ∧ next.level.present = r

/-- A term is an alternative, and it may be without factors. -/
def TakesTerm (text : List Char) (r : Regex) : Prop :=
  ∀ (alternatives : Option Sized) (outer : List (Nat × Level)) (offset : Nat),
    Yields E (take config ceiling ⟨⟨alternatives, none, none⟩, outer⟩ offset text) fun next =>
      ∃ front last, next = ⟨⟨alternatives, front, last⟩, outer⟩ ∧ next.level.present = r

/-- An expression is all of a group, with the last alternative still to be closed. -/
def TakesExpression (text : List Char) (r : Regex) : Prop :=
  ∀ (outer : List (Nat × Level)) (offset : Nat),
    Yields E (take config ceiling ⟨.start, outer⟩ offset text) fun next =>
      next.outer = outer ∧ next.level.regex = r

/-- **What comes of taking in a text of some category.**  An atom and a factor come to the same. -/
def Takes : Category → List Char → Regex → Prop
  | .expression => TakesExpression E config ceiling
  | .term => TakesTerm E config ceiling
  | .factors => TakesFactors E config ceiling
  | .factor => TakesFactor E config ceiling
  | .atom => TakesFactor E config ceiling

variable {E config ceiling}

theorem take_append {v w : List Char} (hv : Token.Closed v) (a : Assembly) (offset : Nat) :
    take config ceiling a offset (v ++ w) =
      (take config ceiling a offset v >>= fun next =>
        take config ceiling next (offset + v.length) w) := by
  rw [take, hv, List.foldlM_append]
  rfl

theorem take_written {first : List Char} {token : Token} {offset : Nat}
    (h : Token.Written offset first token) (a : Assembly) :
    take config ceiling a offset first = step config ceiling a (offset, token) := by
  have hscan := h.scan_append []
  rw [List.append_nil, Token.scan_nil] at hscan
  rw [take, hscan, List.foldlM_cons]
  cases step config ceiling a (offset, token) <;> rfl

theorem take_char {c : Char} (hescape : c ≠ '\\') (hopen : c ≠ '[') (a : Assembly)
    (offset : Nat) :
    take config ceiling a offset [c] = step config ceiling a (offset, .ofChar c) :=
  take_written (.char hescape hopen) a

/-! ### The rules of the grammar -/

/-- A choice of symbols is a factor.  The symbols may depend on where the text stands, as a class
is blamed by its place. -/
theorem TakesFactor.choice {first : List Char} {chosen : Alphabet}
    (symbols : Nat → Except Error Alphabet)
    (hfirst : ∀ a offset,
      take config ceiling a offset first = a.addChoice ceiling (symbols offset))
    (hsymbols : ∀ offset, Yields E (symbols offset) (· = chosen)) :
    TakesFactor E config ceiling first (.oneOf chosen) := by
  intro a offset hjoin
  rw [hfirst]
  refine hjoin.self.bind ?_
  rintro level ⟨_, hlevel⟩
  refine (hsymbols offset).bind ?_
  rintro symbols rfl
  exact .ok ⟨level, .oneOf symbols, hlevel, rfl, rfl⟩

theorem TakesFactor.symbol {first : List Char} {c : Char}
    (hfirst : ∀ offset, Token.Written offset first (.symbol c)) :
    TakesFactor E config ceiling first (.oneOf (.ofList [c])) :=
  .choice (fun _ => .ok (.ofList [c])) (fun a offset => take_written (hfirst offset) a)
    fun _ => .ok rfl

theorem TakesFactor.dot : TakesFactor E config ceiling ['.'] (.oneOf config.dotAlphabet) :=
  .choice (fun _ => .ok config.dotAlphabet)
    (fun a offset => take_char (by decide) (by decide) a offset) fun _ => .ok rfl

theorem TakesFactor.bracket {cls : Class} (hcls : cls.Readable E config) :
    TakesFactor E config ceiling cls.text (.oneOf cls.symbols) :=
  .choice _ (fun a _ => take_written (.bracket cls.legal) a) fun offset => hcls (offset + 1) offset

theorem TakesFactor.repeated {text : List Char} {r : Regex} {sign : Quantifier}
    (hE : ∀ e, ceiling.Hinders (r.repeated sign) e → E e) (hclosed : Token.Closed text)
    (h : TakesFactor E config ceiling text r) :
    TakesFactor E config ceiling (text ++ [sign.char]) (r.repeated sign) := by
  intro a offset hjoin
  rw [take_append hclosed]
  refine (h a offset hjoin).bind ?_
  rintro next ⟨level, s, hlevel, rfl, rfl⟩
  rw [take_written (.repetition sign)]
  refine ((Ceiling.repeated_yields sign s).weaken hE).bind ?_
  rintro grown rfl
  exact .ok ⟨level, s.repeated sign, hlevel, rfl, rfl⟩

theorem TakesFactor.group {text : List Char} {r : Regex}
    (hE : ∀ e, ceiling.Hinders r e → E e) (hclosed : Token.Closed text)
    (h : TakesExpression E config ceiling text r) :
    TakesFactor E config ceiling ('(' :: text ++ [')']) r := by
  intro a offset hjoin
  have hopening : Token.Closed ['('] := .char (by decide) (by decide)
  show Yields E (take config ceiling a offset (['('] ++ (text ++ [')']))) _
  rw [take_append hopening, take_char (by decide) (by decide)]
  have hstep : Yields E (step config ceiling a (offset, .opening)) fun next =>
      ∃ level, a.level.join ceiling = .ok level ∧
        next = ⟨.start, (offset, level) :: a.outer⟩ := by
    refine hjoin.self.bind ?_
    rintro level ⟨_, hlevel⟩
    exact .ok ⟨level, hlevel, rfl⟩
  refine hstep.bind ?_
  rintro _ ⟨level, hlevel, rfl⟩
  -- the joined level waits outside until the group is closed
  rw [take_append hclosed]
  refine (h _ _).bind ?_
  rintro ⟨inner, _⟩ ⟨rfl, rfl⟩
  rw [take_char (by decide) (by decide)]
  refine ((inner.close_yields ceiling).weaken hE).bind ?_
  intro whole hwhole
  exact .ok ⟨level, whole, hlevel, hwhole, rfl⟩

theorem TakesFactors.one {text : List Char} {r : Regex}
    (h : TakesFactor E config ceiling text r) : TakesFactors E config ceiling text r := by
  intro alternatives outer offset
  have hjoin : Yields E (Level.join ceiling ⟨alternatives, none, none⟩) fun _ => True :=
    .ok trivial
  refine (h _ offset hjoin).mono ?_
  rintro next ⟨level, s, hlevel, rfl, rfl⟩
  cases hlevel
  exact ⟨none, s, rfl, rfl⟩

theorem TakesFactors.more {v w : List Char} {r r' : Regex}
    (hE : ∀ e, ceiling.Hinders r e → E e) (hclosed : Token.Closed v)
    (hv : TakesFactors E config ceiling v r) (hw : TakesFactor E config ceiling w r') :
    TakesFactors E config ceiling (v ++ w) (.concat r r') := by
  intro alternatives outer offset
  rw [take_append hclosed]
  refine (hv alternatives outer offset).bind ?_
  rintro _ ⟨front, last, rfl, rfl⟩
  have hjoin := Level.join_yields ceiling ⟨alternatives, front, some last⟩
  refine (hw _ _ ((hjoin.weaken hE).mono fun _ _ => trivial)).mono ?_
  rintro next ⟨⟨before, joined, rest⟩, s, hlevel, rfl, rfl⟩
  rw [hlevel] at hjoin
  obtain ⟨rfl, rfl, hpresent, hsome⟩ := hjoin
  cases joined with
  | none => exact absurd rfl (hsome (by simp))
  | some joined =>
      refine ⟨some joined, s, rfl, ?_⟩
      show Regex.concat joined.regex s.regex = _
      rw [← hpresent]
      rfl

theorem TakesTerm.nothing : TakesTerm E config ceiling [] .empty := by
  intro alternatives outer offset
  rw [take, Token.scan_nil]
  exact .ok ⟨none, none, rfl, rfl⟩

theorem TakesTerm.sequence {text : List Char} {r : Regex}
    (h : TakesFactors E config ceiling text r) : TakesTerm E config ceiling text r := by
  intro alternatives outer offset
  refine (h alternatives outer offset).mono ?_
  rintro next ⟨front, last, rfl, hpresent⟩
  exact ⟨front, some last, rfl, hpresent⟩

theorem TakesExpression.alternative {text : List Char} {r : Regex}
    (h : TakesTerm E config ceiling text r) : TakesExpression E config ceiling text r := by
  intro outer offset
  refine (h none outer offset).mono ?_
  rintro next ⟨front, last, rfl, hpresent⟩
  exact ⟨rfl, hpresent⟩

theorem TakesExpression.either {v w : List Char} {r r' : Regex}
    (hE : ∀ e, ceiling.Hinders r e → E e) (hclosed : Token.Closed v)
    (hv : TakesExpression E config ceiling v r) (hw : TakesTerm E config ceiling w r') :
    TakesExpression E config ceiling (v ++ '|' :: w) (.union r r') := by
  intro outer offset
  have hbar : Token.Closed ['|'] := .char (by decide) (by decide)
  show Yields E (take config ceiling _ offset (v ++ (['|'] ++ w))) _
  rw [take_append hclosed]
  refine (hv outer offset).bind ?_
  rintro ⟨level, outer⟩ ⟨rfl, rfl⟩
  rw [take_append hbar, take_char (by decide) (by decide)]
  have hstep : Yields E (step config ceiling ⟨level, outer⟩ (offset + v.length, .bar)) fun next =>
      ∃ whole : Sized, whole.regex = level.regex ∧ next = ⟨⟨some whole, none, none⟩, outer⟩ := by
    refine ((level.close_yields ceiling).weaken hE).bind ?_
    intro whole hwhole
    exact .ok ⟨whole, hwhole, rfl⟩
  refine hstep.bind ?_
  rintro _ ⟨whole, hwhole, rfl⟩
  refine (hw (some whole) outer _).mono ?_
  rintro next ⟨front, last, rfl, rfl⟩
  exact ⟨rfl, by rw [← hwhole]; rfl⟩

/-- **What comes of taking in a derived text**, by induction over the derivation. -/
theorem takes {k : Category} (d : Derivation k)
    (hE : ∀ e, ceiling.Hinders (d.regex config.dotAlphabet) e → E e)
    (hcls : ∀ cls ∈ d.classes, cls.Readable E config) :
    Takes E config ceiling k d.text (d.regex config.dotAlphabet) := by
  induction d with
  | alternative t ih => exact TakesExpression.alternative (ih hE hcls)
  | either e t ihe iht =>
      have hleft := fun error h => hE error (Ceiling.Hinders.union_left h)
      have hright := fun error h => hE error (Ceiling.Hinders.union_right h)
      exact TakesExpression.either hleft e.closed
        (ihe hleft fun cls h => hcls cls (List.mem_append_left _ h))
        (iht hright fun cls h => hcls cls (List.mem_append_right _ h))
  | nothing => exact TakesTerm.nothing
  | sequence fs ih => exact TakesTerm.sequence (ih hE hcls)
  | one f ih => exact TakesFactors.one (ih hE hcls)
  | more fs f ihfs ihf =>
      have hleft := fun error h => hE error (Ceiling.Hinders.concat_left h)
      have hright := fun error h => hE error (Ceiling.Hinders.concat_right h)
      exact TakesFactors.more hleft fs.closed
        (ihfs hleft fun cls h => hcls cls (List.mem_append_left _ h))
        (ihf hright fun cls h => hcls cls (List.mem_append_right _ h))
  | once a ih => exact ih hE hcls
  | repeated f sign ih =>
      exact TakesFactor.repeated hE f.closed (ih (fun error h => hE error h.repeated) hcls)
  | plain c hc => exact TakesFactor.symbol fun _ => .plain hc
  | escaped c => exact TakesFactor.symbol fun _ => .escaped c
  | dot => exact TakesFactor.dot
  | bracket cls => exact TakesFactor.bracket (hcls cls (by simp [Derivation.classes]))
  | group e ih => exact TakesFactor.group hE e.closed (ih hE hcls)

/-- **A derived text is read as what is derived**, unless a ceiling or a class stands in the way. -/
theorem run_yields (d : Derivation .expression)
    (hE : ∀ e, ceiling.Hinders (d.regex config.dotAlphabet) e → E e)
    (hcls : ∀ cls ∈ d.classes, cls.Readable E config) (offset : Nat) :
    Yields E (start.run config ceiling (Token.scan offset d.text)) fun whole =>
      whole.regex = d.regex config.dotAlphabet := by
  refine (takes d hE hcls [] offset).bind ?_
  rintro ⟨level, _⟩ ⟨rfl, hlevel⟩
  rw [← hlevel] at hE
  refine ((level.close_yields ceiling).weaken hE).bind ?_
  intro whole hwhole
  exact .ok (hwhole.trans hlevel)

/-! ### The depth of groups -/

theorem checkDepth_written {max n offset : Nat} {first : List Char} {token : Token}
    (h : Token.Written offset first token) (hopening : token ≠ .opening)
    (hclosing : token ≠ .closing) (rest : List (Nat × Token)) :
    checkDepth max n (Token.scan offset first ++ rest) = checkDepth max n rest := by
  have hscan := h.scan_append []
  rw [List.append_nil, Token.scan_nil] at hscan
  rw [hscan, List.singleton_append, checkDepth]
  · rintro _ ⟨⟩
    exact hopening rfl
  · rintro _ ⟨⟩
    exact hclosing rfl

/-- **The check finds the first group that lies too deep**, and passes over a text without one.
What follows the text is a parameter, so that the parts of a text can be put together. -/
theorem checkDepth_text {k : Category} (d : Derivation k) (max n offset : Nat)
    (rest : List (Nat × Token)) :
    checkDepth max n (Token.scan offset d.text ++ rest) =
      match (d.openings offset n).find? (max < ·.2) with
      | some (start, _) => .error (.malformed (.nestedTooDeep max) start)
      | none => checkDepth max n rest := by
  induction d generalizing n offset rest with
  | alternative t ih => exact ih n offset rest
  | either e t ihe iht =>
      have hbar : Token.Closed ['|'] := .char (by decide) (by decide)
      show checkDepth max n (Token.scan offset (e.text ++ (['|'] ++ t.text)) ++ rest) = _
      rw [e.closed, hbar, List.append_assoc, List.append_assoc, ihe,
        checkDepth_written (.char (by decide) (by decide)) (by decide) (by decide), iht,
        Derivation.openings, List.find?_append]
      cases (e.openings offset n).find? (max < ·.2) <;> rfl
  | nothing =>
      show checkDepth max n (Token.scan offset [] ++ rest) = _
      rw [Token.scan_nil, List.nil_append]
      rfl
  | sequence fs ih => exact ih n offset rest
  | one f ih => exact ih n offset rest
  | more fs f ihfs ihf =>
      show checkDepth max n (Token.scan offset (fs.text ++ f.text) ++ rest) = _
      rw [fs.closed, List.append_assoc, ihfs, ihf, Derivation.openings, List.find?_append]
      cases (fs.openings offset n).find? (max < ·.2) <;> rfl
  | once a ih => exact ih n offset rest
  | repeated f sign ih =>
      show checkDepth max n (Token.scan offset (f.text ++ [sign.char]) ++ rest) = _
      have hsign : Token.Written (offset + f.text.length) [sign.char] (.repetition sign) :=
        .repetition sign
      rw [f.closed, List.append_assoc, ih, checkDepth_written hsign (by simp) (by simp)]
      rfl
  | plain c hc => exact checkDepth_written (.plain hc) (by simp) (by simp) rest
  | escaped c => exact checkDepth_written (.escaped c) (by simp) (by simp) rest
  | dot => exact checkDepth_written (.char (by decide) (by decide)) (by decide) (by decide) rest
  | bracket cls => exact checkDepth_written (.bracket cls.legal) (by simp) (by simp) rest
  | group e ih =>
      -- between its parentheses the text of a group is one group deeper
      have hopening : Token.Closed ['('] := .char (by decide) (by decide)
      have hscan : Token.scan offset (['('] ++ (e.text ++ [')'])) ++ rest =
          (offset, .opening) :: (Token.scan (offset + 1) e.text ++
            (offset + 1 + e.text.length, .closing) :: rest) := by
        rw [hopening, e.closed, Token.scan_char (by decide) (by decide),
          Token.scan_char (by decide) (by decide), Token.scan_nil, Token.scan_nil]
        simp [Token.ofChar]
      show checkDepth max n (Token.scan offset (['('] ++ (e.text ++ [')'])) ++ rest) = _
      rw [hscan, checkDepth, Derivation.openings, List.find?_cons]
      by_cases hlt : max < n + 1
      · rw [if_pos hlt, decide_eq_true hlt]
      · rw [if_neg hlt, decide_eq_false hlt, ih, checkDepth, Nat.add_sub_cancel]

end Assembly

/-- **Some group lies too deep iff the depth of the derivation is too great.** -/
theorem Derivation.exists_opening_iff {max : Nat} {k : Category} (d : Derivation k) {n : Nat}
    (hn : n ≤ max) (offset : Nat) :
    (∃ opening ∈ d.openings offset n, max < opening.2) ↔ max < n + d.depth := by
  have hnone : (∃ opening ∈ ([] : List (Nat × Nat)), max < opening.2) ↔ max < n + 0 :=
    iff_of_false (by simp) (Nat.not_lt.2 hn)
  induction d generalizing n offset with
  | alternative t ih => exact ih hn offset hnone
  | either e t ihe iht =>
      simp only [openings, List.mem_append, or_and_right, exists_or, ihe hn _ hnone,
        iht hn _ hnone, depth]
      omega
  | nothing => exact hnone
  | sequence fs ih => exact ih hn offset hnone
  | one f ih => exact ih hn offset hnone
  | more fs f ihfs ihf =>
      simp only [openings, List.mem_append, or_and_right, exists_or, ihfs hn _ hnone,
        ihf hn _ hnone, depth]
      omega
  | once a ih => exact ih hn offset hnone
  | repeated f sign ih => exact ih hn offset hnone
  | plain c hc => exact hnone
  | escaped c => exact hnone
  | dot => exact hnone
  | bracket cls => exact hnone
  | group e ih =>
      simp only [openings, List.exists_mem_cons_iff, depth]
      by_cases hlt : max < n + 1
      -- this parenthesis is too deep itself, and otherwise one inside it has to be
      · exact iff_of_true (.inl hlt) (by omega)
      · have hle : n + 1 ≤ max := Nat.not_lt.1 hlt
        have hinner := ih hle (offset + 1) (iff_of_false (by simp) (Nat.not_lt.2 hle))
        exact (or_iff_right hlt).trans (hinner.trans (by omega))

namespace Assembly

/-- **Groups that do not lie too deep are passed over**, and what follows is checked with as many
groups open as before. -/
theorem checkDepth_append {max : Nat} {k : Category} (d : Derivation k) {n : Nat}
    (hdepth : n + d.depth ≤ max) (offset : Nat) (rest : List (Nat × Token)) :
    checkDepth max n (Token.scan offset d.text ++ rest) = checkDepth max n rest := by
  have hnone : (d.openings offset n).find? (max < ·.2) = none := by
    rw [List.find?_eq_none]
    intro opening hopening hlt
    have hle : n ≤ max := Nat.le_trans (Nat.le_add_right _ _) hdepth
    exact absurd ((d.exists_opening_iff hle offset).1 ⟨opening, hopening, of_decide_eq_true hlt⟩)
      (Nat.not_lt.2 hdepth)
  rw [checkDepth_text, hnone]

end Assembly

end PatternAutomata
