import PatternAutomata.Proofs.Nfa.Languages
import PatternAutomata.Proofs.Pattern.Automaton
import PatternAutomata.Proofs.Pattern.Refusals

/-!
# The size of the automaton of a pattern

How many states the automaton of a pattern has can be told from its derivation, and a pattern
without a fault is refused just when these are too many.  `Nfa.ofPattern_size` says both exactly.

## An operator is refused for its own result

A leaf is never refused, however low the ceiling is, and of several operators the one that makes
the whole tree has the most states.  So the tree is admitted as a whole iff no operator in it is
refused (`Ceiling.Admits`).  That leaves derivations without an operator, which have an automaton
under any ceiling (`Derivation.Bare`): their two states are made without asking.  Dense sets hold
two states in any case.

## Two directions

Both directions go along the reading of tokens, but not the same way.  That nothing is refused was
shown for derived texts, piece by piece.  That what is read is admitted is kept by every token,
whatever the text is (`Assembly.admitted_step`).  Together they say that the pattern is read iff
the tree is admitted, and the tree is known from the derivation.
-/

namespace PatternAutomata

open Regex (Sized)
open Error (Yields)

/-! ### Sizes of derivations -/

namespace Derivation

variable {k : Category}

/-- **How many states the automaton of a derivation has.**  The operand of `+` is copied; groups
add nothing. -/
def states {k : Category} : Derivation k → Nat
  | alternative t => t.states
  | either e t => e.states + t.states + 2
  | nothing => 1
  | sequence fs => fs.states
  | one f => f.states
  | more fs f => fs.states + f.states
  | once a => a.states
  | repeated f .star => f.states + 2
  | repeated f .plus => 2 * f.states + 2
  | repeated f .optional => f.states + 2
  | plain _ _ => 2
  | escaped _ => 2
  | dot => 2
  | bracket _ => 2
  | group e => e.states

/-- A derivation that uses no operator: a single atom or the empty term, possibly in groups. -/
def Bare {k : Category} : Derivation k → Prop
  | alternative t => t.Bare
  | either _ _ => False
  | nothing => True
  | sequence fs => fs.Bare
  | one f => f.Bare
  | more _ _ => False
  | once a => a.Bare
  | repeated _ _ => False
  | plain _ _ => True
  | escaped _ => True
  | dot => True
  | bracket _ => True
  | group e => e.Bare

theorem states_regex (any : Alphabet) (d : Derivation k) : (d.regex any).states = d.states := by
  induction d with
  | alternative t ih => exact ih
  | either e t ihe iht => rw [regex, Regex.states, ihe, iht, states]
  | nothing => rfl
  | sequence fs ih => exact ih
  | one f ih => exact ih
  | more fs f ihfs ihf => rw [regex, Regex.states, ihfs, ihf, states]
  | once a ih => exact ih
  | repeated f sign ih =>
      cases sign with
      | star => rw [regex, Regex.repeated, Regex.states, ih, states]
      | plus => rw [regex, Regex.repeated, Regex.states, ih, states]
      | optional => rw [regex, Regex.repeated, Regex.states, ih, states]
  | plain c hc => rfl
  | escaped c => rfl
  | dot => rfl
  | bracket cls => rfl
  | group e ih => exact ih

theorem isOperator_regex_iff (any : Alphabet) (d : Derivation k) :
    (d.regex any).IsOperator ↔ ¬ d.Bare := by
  induction d with
  | alternative t ih => exact ih
  | either e t => exact iff_of_true trivial id
  | nothing => exact iff_of_false id (not_not_intro trivial)
  | sequence fs ih => exact ih
  | one f ih => exact ih
  | more fs f => exact iff_of_true trivial id
  | once a ih => exact ih
  | repeated f sign => exact iff_of_true (Regex.isOperator_repeated sign _) id
  | plain c hc => exact iff_of_false id (not_not_intro trivial)
  | escaped c => exact iff_of_false id (not_not_intro trivial)
  | dot => exact iff_of_false id (not_not_intro trivial)
  | bracket cls => exact iff_of_false id (not_not_intro trivial)
  | group e ih => exact ih

/-- Without an operator there are at most two states, so dense sets can hold them. -/
theorem Bare.states_le {d : Derivation k} (bare : d.Bare) : d.states ≤ 2 := by
  induction d with
  | alternative t ih => exact ih bare
  | either e t => exact absurd bare id
  | nothing => exact Nat.le_succ 1
  | sequence fs ih => exact ih bare
  | one f ih => exact ih bare
  | more fs f => exact absurd bare id
  | once a ih => exact ih bare
  | repeated f sign => exact absurd bare id
  | plain c hc => exact Nat.le_refl 2
  | escaped c => exact Nat.le_refl 2
  | dot => exact Nat.le_refl 2
  | bracket cls => exact Nat.le_refl 2
  | group e ih => exact ih bare

end Derivation

/-! ### Trees within the bounds -/

theorem Strategy.Guards.not_exceeds {strategy : Strategy} {n : Nat} {outcome : Except Error Unit}
    {u : Unit} (guards : strategy.Guards n outcome) (h : outcome = .ok u) :
    ¬ strategy.Exceeds n := by
  intro exceeds
  obtain ⟨e, he, -⟩ := guards.refuses exceeds
  rw [h] at he
  cases he

namespace Ceiling

variable {ceiling : Ceiling} {r : Regex}

/-- `ceiling.Admits r`: the tree `r` may be put together, as it is a leaf or within the bounds. -/
def Admits (ceiling : Ceiling) (r : Regex) : Prop :=
  r.IsOperator → r.states ≤ ceiling.maxStates ∧ ¬ ceiling.strategy.Exceeds r.states

/-- What may be put together is not hindered, as a number up to its states is not beyond a bound
that they are within. -/
theorem Hinders.not_admits {e : Error} (h : ceiling.Hinders r e) : ¬ ceiling.Admits r := by
  obtain ⟨hoperator, refuses⟩ := h
  intro admits
  obtain ⟨hle, fits⟩ := admits hoperator
  cases e with
  | stateLimitExceeded states max =>
      obtain ⟨rfl, hlt, hstates⟩ := refuses
      exact absurd hle (Nat.not_le.2 (hlt.trans_le hstates))
  | capacityExceeded capacity requested =>
      obtain ⟨hcapacity, hlt, hrequested⟩ := refuses
      exact fits ⟨capacity, hcapacity, hlt.trans_le hrequested⟩
  | malformed fault offset => exact refuses
  | breached breach => exact refuses

theorem le_of_reserve {states : Nat} {u : Unit} (h : ceiling.reserve states = .ok u) :
    states ≤ ceiling.maxStates := by
  rw [reserve] at h
  split at h
  · cases h
  · exact Nat.not_lt.1 ‹_›

/-! An operator that is applied has a result that is admitted. -/

theorem union_admits (l r : Sized) :
    Yields (fun _ => True) (ceiling.union l r) fun s => ceiling.Admits s.regex := by
  apply Yields.of_ok (fun _ => trivial)
  intro s h
  obtain ⟨_, hreserve, h⟩ := Error.bind_eq_ok_iff.1 h
  obtain ⟨_, hcheck, h⟩ := Error.bind_eq_ok_iff.1 h
  cases h
  rw [Admits, ← Sized.states_eq]
  exact fun _ => ⟨le_of_reserve hreserve, (Strategy.checkUnion_guards _ _).not_exceeds hcheck⟩

theorem concat_admits (l r : Sized) :
    Yields (fun _ => True) (ceiling.concat l r) fun s => ceiling.Admits s.regex := by
  apply Yields.of_ok (fun _ => trivial)
  intro s h
  obtain ⟨_, hreserve, h⟩ := Error.bind_eq_ok_iff.1 h
  obtain ⟨_, hcheck, h⟩ := Error.bind_eq_ok_iff.1 h
  cases h
  rw [Admits, ← Sized.states_eq]
  exact fun _ => ⟨le_of_reserve hreserve, (Strategy.checkConcat_guards _ _).not_exceeds hcheck⟩

theorem repeated_admits (sign : Quantifier) (r : Sized) :
    Yields (fun _ => True) (ceiling.repeated sign r) fun s => ceiling.Admits s.regex := by
  apply Yields.of_ok (fun _ => trivial)
  intro s h
  obtain ⟨_, hreserve, h⟩ := Error.bind_eq_ok_iff.1 h
  have hle := le_of_reserve hreserve
  cases sign with
  | star =>
      obtain ⟨_, hcheck, h⟩ := Error.bind_eq_ok_iff.1 h
      cases h
      rw [Admits, ← Sized.states_eq]
      exact fun _ => ⟨hle, (Strategy.checkAround_guards _).not_exceeds hcheck⟩
  | plus =>
      obtain ⟨_, hcheck, h⟩ := Error.bind_eq_ok_iff.1 h
      cases h
      rw [Admits, ← Sized.states_eq]
      exact fun _ => ⟨hle, (Strategy.checkPlus_guards _).not_exceeds hcheck⟩
  | optional =>
      obtain ⟨_, hcheck, h⟩ := Error.bind_eq_ok_iff.1 h
      cases h
      rw [Admits, ← Sized.states_eq]
      exact fun _ => ⟨hle, (Strategy.checkAround_guards _).not_exceeds hcheck⟩

end Ceiling

/-! ### What is read stays within the bounds -/

namespace Level

variable {ceiling : Ceiling} {level : Level}

/-- The parts of a level are admitted, each by itself. -/
structure Admitted (ceiling : Ceiling) (level : Level) : Prop where
  alternatives : ∀ s ∈ level.alternatives, ceiling.Admits s.regex
  front : ∀ s ∈ level.front, ceiling.Admits s.regex
  last : ∀ s ∈ level.last, ceiling.Admits s.regex

theorem Admitted.start : Admitted ceiling .start := ⟨nofun, nofun, nofun⟩

theorem Admitted.join (h : Admitted ceiling level) :
    Yields (fun _ => True) (level.join ceiling) (Admitted ceiling) := by
  obtain ⟨alternatives, front, last⟩ := level
  cases last with
  | none => exact .ok h
  | some factor =>
      cases front with
      | none => exact .ok ⟨h.alternatives, h.last, nofun⟩
      | some front =>
          refine (Ceiling.concat_admits front factor).bind fun joined hjoined => ?_
          refine .ok ⟨h.alternatives, ?_, nofun⟩
          rintro _ ⟨⟩
          exact hjoined

theorem Admitted.close (h : Admitted ceiling level) :
    Yields (fun _ => True) (level.close ceiling) fun whole => ceiling.Admits whole.regex := by
  refine h.join.bind fun next hnext => ?_
  obtain ⟨alternatives, front, last⟩ := next
  cases alternatives with
  | none =>
      cases front with
      | none => exact .ok (nofun : ceiling.Admits .empty)
      | some front => exact .ok (hnext.front front rfl)
  | some before => exact Ceiling.union_admits _ _

/-- Another last factor may take the place of the last. -/
theorem Admitted.factor (h : Admitted ceiling level) {s : Sized} (hs : ceiling.Admits s.regex) :
    Admitted ceiling { level with last := some s } := by
  refine ⟨h.alternatives, h.front, ?_⟩
  rintro _ ⟨⟩
  exact hs

end Level

namespace Assembly

variable {ceiling : Ceiling} {a : Assembly}

/-- The parts of all open groups are admitted. -/
structure Admitted (ceiling : Ceiling) (a : Assembly) : Prop where
  level : a.level.Admitted ceiling
  outer : ∀ around ∈ a.outer, around.2.Admitted ceiling

theorem Admitted.start : Admitted ceiling .start := ⟨.start, nofun⟩

theorem Admitted.addChoice (h : Admitted ceiling a) (symbols : Except Error Alphabet) :
    Yields (fun _ => True) (a.addChoice ceiling symbols) (Admitted ceiling) := by
  refine h.level.join.bind fun next hnext => ?_
  cases symbols with
  | error e => exact trivial
  | ok symbols => exact .ok ⟨hnext.factor (nofun : ceiling.Admits (.oneOf symbols)), h.outer⟩

/-- **Taking in a token keeps to what may be put together.** -/
theorem admitted_step (config : Config) (token : Nat × Token) (h : Admitted ceiling a) :
    Yields (fun _ => True) (a.step config ceiling token) (Admitted ceiling) := by
  obtain ⟨offset, token⟩ := token
  cases token with
  | symbol c => exact h.addChoice _
  | dot => exact h.addChoice _
  | bracket b => exact h.addChoice _
  | dangling => exact h.addChoice _
  | opening =>
      refine h.level.join.bind fun next hnext => .ok ⟨.start, ?_⟩
      exact List.forall_mem_cons.2 ⟨hnext, h.outer⟩
  | bar =>
      refine h.level.close.bind fun whole hwhole => .ok ⟨⟨?_, nofun, nofun⟩, h.outer⟩
      rintro _ ⟨⟩
      exact hwhole
  | closing =>
      refine h.level.close.bind fun group hgroup => ?_
      obtain ⟨level, outer⟩ := a
      cases outer with
      | nil => exact trivial
      | cons around outer =>
          obtain ⟨haround, houter⟩ := List.forall_mem_cons.1 h.outer
          exact .ok ⟨haround.factor hgroup, houter⟩
  | repetition sign =>
      rw [step]
      cases hlast : a.level.last with
      | none => exact trivial
      | some factor =>
          refine (Ceiling.repeated_admits sign factor).bind fun grown hgrown => ?_
          exact .ok ⟨h.level.factor hgrown, h.outer⟩

/-- **Reading on to the end of a pattern** gives a tree that may be put together. -/
theorem Admitted.run (h : Admitted ceiling a) (config : Config) (tokens : List (Nat × Token)) :
    Yields (fun _ => True) (a.run config ceiling tokens) fun whole =>
      ceiling.Admits whole.regex := by
  have hfold := Yields.foldlM (fun _ token => admitted_step config token) tokens h
  refine hfold.bind fun final hfinal => ?_
  refine hfinal.level.close.bind fun whole hwhole => ?_
  cases final.outer with
  | nil => exact .ok hwhole
  | cons around outer => exact trivial

end Assembly

variable {config : Config} {strategy : Strategy} {pattern : List Char}

/-- **Only trees are read that may be put together**, from whatever pattern. -/
theorem Regex.admits_of_parse {r : Regex} (h : parse config strategy pattern = .ok r) :
    (⟨config.maxNfaStates, strategy⟩ : Ceiling).Admits r := by
  obtain ⟨_, -, h⟩ := Error.bind_eq_ok_iff.1 h
  obtain ⟨whole, hrun, h⟩ := Error.bind_eq_ok_iff.1 h
  cases h
  have hadmits : Yields (fun _ => True) (Assembly.start.run config ⟨config.maxNfaStates, strategy⟩
      (Token.scan (Body.ofPattern pattern).offset (Body.ofPattern pattern).text)) fun whole =>
      (⟨config.maxNfaStates, strategy⟩ : Ceiling).Admits whole.regex :=
    Assembly.Admitted.start.run _ _
  rw [hrun] at hadmits
  exact hadmits

/-- **A pattern of the grammar is read as what is derived**, unless its text is at fault or an
operator is refused. -/
theorem Regex.parse_yields_faults (config : Config) (strategy : Strategy)
    {e : Derivation .expression} (he : Unanchored pattern e.text) :
    Yields (fun error => error.IsFault ∨
      (⟨config.maxNfaStates, strategy⟩ : Ceiling).Hinders (e.regex config.dotAlphabet) error)
      (parse config strategy pattern) (· = e.regex config.dotAlphabet) := by
  refine parse_yields he (fun _ => .inr) (fun cls _ offset start => ?_) ?_
  · exact ((Bracket.refused_members _ _ _).yields (cls.readable config offset start)).weaken
      fun _ h => .inl h.1
  · exact ((Assembly.refused_checkDepth _ _ _).yields
      (.of_ok (fun _ => trivial) fun _ _ => trivial)).weaken fun _ => .inl

/-- A pattern of the grammar is not at fault if its groups are not nested too deep and its classes
are not too large. -/
theorem Regex.parse_ne_malformed {e : Derivation .expression} (he : Unanchored pattern e.text)
    (hdepth : e.depth ≤ config.maxNestingDepth)
    (hclasses : ∀ cls ∈ e.classes, ¬ cls.Trips config.maxClassSize) {fault : Fault}
    {offset : Nat} : parse config strategy pattern ≠ .error (.malformed fault offset) := by
  intro hparse
  have hbounds : Yields ((⟨config.maxNfaStates, strategy⟩ : Ceiling).Refuses
      (e.regex config.dotAlphabet).states) (parse config strategy pattern)
      (· = e.regex config.dotAlphabet) :=
    parse_yields_of_depth he (fun _ refuses => refuses)
      (fun cls hcls => Class.readable_of_not_trips (hclasses cls hcls)) hdepth
  rw [hparse] at hbounds
  exact hbounds

/-- A derivation is admitted iff it uses no operator or its states are within the bounds. -/
theorem Derivation.admits_iff (e : Derivation .expression) (any : Alphabet) (max : Nat) :
    (⟨max, strategy⟩ : Ceiling).Admits (e.regex any) ↔
      (e.states ≤ max ∨ e.Bare) ∧ (strategy = .bit → e.states ≤ 4096) := by
  have capacity : ¬ strategy.Exceeds e.states ↔ (strategy = .bit → e.states ≤ 4096) := by
    cases strategy with
    | hash => exact iff_of_true (fun ⟨_, h, _⟩ => nomatch h) nofun
    | bit =>
        constructor
        · intro fits _
          exact Nat.not_lt.1 fun hlt => fits ⟨4096, rfl, hlt⟩
        · rintro hle ⟨_, ⟨⟩, hlt⟩
          exact absurd (hle rfl) (Nat.not_le.2 hlt)
  rw [Ceiling.Admits, e.isOperator_regex_iff, e.states_regex, capacity]
  constructor
  · intro h
    by_cases bare : e.Bare
    · exact ⟨.inr bare, fun _ => bare.states_le.trans (by decide)⟩
    · exact ⟨.inl (h bare).1, (h bare).2⟩
  · rintro ⟨hle, fits⟩ hoperator
    exact ⟨hle.resolve_right hoperator, fits⟩

/-- **The ceilings on the automaton of a pattern are exact.**  A pattern of the grammar is not at
fault if its groups are not nested too deep and its classes are not too large.  If it is not at
fault, it has an automaton iff the number of states of its derivation is within the configured
ceiling, or it uses no operator, and with dense sets within their capacity as well.  The automaton
has just this number of states, whatever the sets are.  Otherwise the cause of the refusal is a
number of states that is beyond the configured ceiling, or with dense sets beyond their capacity. -/
theorem Nfa.ofPattern_size (config : Config) (strategy : Strategy) (pattern : List Char)
    (e : Derivation .expression) (he : Unanchored pattern e.text) :
    (e.depth ≤ config.maxNestingDepth → (∀ cls ∈ e.classes, ¬ cls.Trips config.maxClassSize) →
      ∀ fault offset, ofPattern config strategy pattern ≠ .error (.malformed fault offset)) ∧
    ((∀ fault offset, ofPattern config strategy pattern ≠ .error (.malformed fault offset)) →
      ((∃ nfa, ofPattern config strategy pattern = .ok nfa) ↔
        (e.states ≤ config.maxNfaStates ∨ e.Bare) ∧ (strategy = .bit → e.states ≤ 4096)) ∧
      (∀ nfa, ofPattern config strategy pattern = .ok nfa → nfa.numStates = e.states) ∧
      (∀ error, ofPattern config strategy pattern = .error error →
        (∃ states, error = .stateLimitExceeded states config.maxNfaStates ∧
          config.maxNfaStates < states) ∨
        (strategy = .bit ∧ ∃ requested, error = .capacityExceeded 4096 requested ∧
          4096 < requested))) := by
  have hread := Regex.parse_yields_faults config strategy he
  rw [ofPattern, ← e.admits_iff config.dotAlphabet]
  cases hparse : Regex.parse config strategy pattern with
  | ok regex =>
      rw [hparse] at hread
      obtain rfl : regex = e.regex config.dotAlphabet := hread
      refine ⟨?_, fun _ => ⟨iff_of_true ⟨_, rfl⟩ (Regex.admits_of_parse hparse), ?_, ?_⟩⟩
      · rintro - - fault offset ⟨⟩
      · rintro _ ⟨⟩
        rw [Regex.numStates_toNfa, e.states_regex]
      · rintro error ⟨⟩
  | error error =>
      rw [hparse] at hread
      refine ⟨fun hdepth hclasses => ?_, fun hfault => ?_⟩
      · rintro fault offset ⟨⟩
        exact Regex.parse_ne_malformed he hdepth hclasses hparse
      -- the text is not at fault, so an operator was refused, and none would be if the whole were
      -- admitted
      · have hinders := hread.resolve_left ?_
        · refine ⟨iff_of_false ?_ hinders.not_admits, ?_, ?_⟩
          · rintro ⟨nfa, ⟨⟩⟩
          · rintro nfa ⟨⟩
          · rintro _ ⟨⟩
            rcases hinders.2.cases with ⟨states, rfl, hlt, -⟩ | ⟨rfl, requested, rfl, hlt, -⟩
            · exact .inl ⟨states, rfl, hlt⟩
            · exact .inr ⟨rfl, requested, rfl, hlt⟩
        · rintro ⟨fault, offset, rfl⟩
          exact hfault fault offset rfl

/-- A repeated letter as an alternative takes ten states, and nine are too few. -/
theorem Nfa.ofPattern_size_of_alternative :
    let pattern := ['a', '|', 'b', '+']
    let enough : Config := { dotAlphabet := ∅, maxNfaStates := 10 }
    let scarce : Config := { dotAlphabet := ∅, maxNfaStates := 9 }
    ∃ e : Derivation .expression, Unanchored pattern e.text ∧ e.states = 10 ∧
      (∃ nfa, ofPattern enough .bit pattern = .ok nfa ∧ nfa.numStates = 10) ∧
      (∀ fault offset, ofPattern scarce .bit pattern ≠ .error (.malformed fault offset)) ∧
      ¬ ∃ nfa, ofPattern scarce .bit pattern = .ok nfa := by
  intro pattern enough scarce
  let a : Derivation .factor := .once (.plain 'a' (by decide))
  let b : Derivation .factor := .once (.plain 'b' (by decide))
  let e : Derivation .expression := .either (.alternative (.sequence (.one a)))
    (.sequence (.one (.repeated b .plus)))
  have he : Unanchored pattern e.text := Body.text_ofPattern.2 (by decide)
  have sound : ∀ config : Config, e.depth ≤ config.maxNestingDepth →
      ∀ fault offset, ofPattern config .bit pattern ≠ .error (.malformed fault offset) :=
    fun config hdepth => (ofPattern_size config .bit pattern e he).1 hdepth nofun
  obtain ⟨okEnough, numStates_eq, -⟩ :=
    (ofPattern_size enough .bit pattern e he).2 (sound enough (Nat.zero_le _))
  obtain ⟨okScarce, -⟩ := (ofPattern_size scarce .bit pattern e he).2 (sound scarce (Nat.zero_le _))
  obtain ⟨nfa, hnfa⟩ := okEnough.2 ⟨.inl (Nat.le_refl 10), fun _ => by decide⟩
  refine ⟨e, he, rfl, ⟨nfa, hnfa, numStates_eq nfa hnfa⟩, sound scarce (Nat.zero_le _), ?_⟩
  intro hok
  exact absurd (okScarce.1 hok).1 (not_or.2 ⟨by decide, id⟩)

end PatternAutomata
