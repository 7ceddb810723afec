import Mathlib.Data.List.Infix
import PatternAutomata.Proofs.Compile
import PatternAutomata.Proofs.Dfa.Editing

/-!
# What the record of a run says

The record of a run is told to hold the edges that the input leads along, as far as it leads, and
the reason why it leads no further.  It is made by a loop of its own, which looks a symbol up in
the alphabet before it looks for an edge.  `Dfa.Built.trace_records_run` says what such a record
tells.

## Two loops that stop at the same place

Acceptance looks for edges only.  A symbol that is foreign to the automaton has no edge, since
edges carry symbols of the alphabet; so both loops stop at the same place, and the record says the
input is accepted iff it is.  The reason it gives is finer: a symbol may be unknown, or known and
without an edge in the last state.

## As far as it leads

The steps of a record are a walk (`Dfa.Walk`) over a first part of the input.  That no longer part
leads anywhere has to be said separately (`Dfa.Ends.isPrefix_of_run`), or a record could stop too
soon and still be a walk.

## Automata without states

A run in a complete automaton is expected not to end for want of an edge.  The start of an
automaton without states is not one of its states: no edge of a state is missing there, and still
there is none to follow (`Dfa.noTransition_of_no_states`).  With a state, what is expected is
true.
-/

namespace PatternAutomata.Dfa

variable {dfa : Dfa} {s t k : Nat} {c : Char} {w rest : List Char} {steps : List Step}
variable {outcome : Outcome}

/-! ### Walks -/

/-- `dfa.Walk s steps t`: the steps are edges of the automaton, each begins where the one before
it ended, and they lead from `s` to `t`. -/
inductive Walk (dfa : Dfa) : Nat → List Step → Nat → Prop
  | nil (s : Nat) : Walk dfa s [] s
  | cons {s next t : Nat} {c : Char} {steps : List Step} :
      dfa.transition s c = some next → Walk dfa next steps t →
        Walk dfa s (⟨s, c, next⟩ :: steps) t

/-- A walk ends in the state that its symbols lead to. -/
theorem Walk.runFrom_eq (walk : dfa.Walk s steps t) :
    dfa.runFrom s (steps.map (·.symbol)) = some t := by
  induction walk with
  | nil s => rfl
  | cons edge _ ih =>
      rw [List.map_cons, runFrom_cons, edge]
      exact ih

theorem Walk.lt (walk : dfa.Walk s steps t) (wf : dfa.WellFormed) (hs : s < dfa.numStates) :
    t < dfa.numStates := by
  induction walk with
  | nil s => exact hs
  | cons edge _ ih => exact ih (wf.target_lt edge)

/-! ### How a run ends -/

/-- `dfa.Ends s k rest outcome`: how a run ends that is in the state `s` after `k` symbols, with
`rest` still to be read.  Where nothing is left the outcome is about the state, and otherwise
about the next symbol. -/
inductive Ends (dfa : Dfa) (s k : Nat) : List Char → Outcome → Prop
  | accepted : dfa.isAccepting s = true → Ends dfa s k [] .accepted
  | rejected : dfa.isAccepting s = false → Ends dfa s k [] (.rejected s)
  | unknownSymbol {c : Char} {rest : List Char} :
      c ∉ dfa.alphabet → Ends dfa s k (c :: rest) (.unknownSymbol k c)
  | noTransition {c : Char} {rest : List Char} :
      c ∈ dfa.alphabet → dfa.transition s c = none →
        Ends dfa s k (c :: rest) (.noTransition k s c)

namespace Ends

/-- A run that ends before a symbol has no edge to follow, for either of the two reasons. -/
theorem transition_eq_none (ends : dfa.Ends s k (c :: rest) outcome) (wf : dfa.WellFormed) :
    dfa.transition s c = none := by
  cases ends with
  | unknownSymbol foreign =>
      rw [Option.eq_none_iff_forall_ne_some]
      exact fun t edge => foreign (wf.mem_alphabet edge)
  | noTransition _ missing => exact missing

/-- **Whether a record says that the input is accepted** is whether the rest of it is. -/
theorem isAccepted_eq (ends : dfa.Ends s k rest outcome) (wf : dfa.WellFormed) :
    (outcome == .accepted) = dfa.acceptsFrom s rest := by
  cases rest with
  | nil =>
      rw [acceptsFrom_nil]
      cases ends with
      | accepted accepting => rw [accepting]; rfl
      | rejected accepting => rw [accepting]; rfl
  | cons c rest =>
      rw [acceptsFrom_cons, ends.transition_eq_none wf]
      cases ends with
      | unknownSymbol _ => rfl
      | noTransition _ _ => rfl

/-- All of the input was read iff the run says nothing of a symbol. -/
theorem rest_eq_nil_iff (ends : dfa.Ends s k rest outcome) :
    rest = [] ↔ outcome = .accepted ∨ outcome = .rejected s := by
  cases ends with
  | accepted _ => exact iff_of_true rfl (.inl rfl)
  | rejected _ => exact iff_of_true rfl (.inr rfl)
  | unknownSymbol _ => exact iff_of_false nofun nofun
  | noTransition _ _ => exact iff_of_false nofun nofun

/-- A run that ends before a symbol names it, and tells whether it is in the alphabet. -/
theorem before_symbol (ends : dfa.Ends s k (c :: rest) outcome) :
    (outcome = .unknownSymbol k c ↔ c ∉ dfa.alphabet) ∧
      (outcome = .noTransition k s c ↔ c ∈ dfa.alphabet) := by
  cases ends with
  | unknownSymbol foreign => exact ⟨iff_of_true rfl foreign, iff_of_false nofun foreign⟩
  | noTransition known _ =>
      exact ⟨iff_of_false nofun (not_not.2 known), iff_of_true rfl known⟩

/-- In a state from which no edge is missing, a run does not end for want of one. -/
theorem ne_noTransition (ends : dfa.Ends s k rest outcome) (total : dfa.Total)
    (hs : s < dfa.numStates) (position state : Nat) (symbol : Char) :
    outcome ≠ .noTransition position state symbol := by
  rintro rfl
  cases ends with
  | noTransition known missing =>
      obtain ⟨t, edge⟩ := total s hs _ known
      rw [missing] at edge
      cases edge

/-- **A run goes as far as it can**: no more of the input leads anywhere. -/
theorem isPrefix_of_run (ends : dfa.Ends t k rest outcome) (wf : dfa.WellFormed)
    {read v : List Char} (hread : dfa.run read = some t) (hv : v <+: read ++ rest)
    (hrun : (dfa.run v).isSome = true) : v <+: read := by
  -- a longer part of the input goes on with the symbol that the run ends before
  rcases List.prefix_or_prefix_of_prefix hv (List.prefix_append read rest) with h | ⟨more, rfl⟩
  · exact h
  · rw [List.prefix_append_right_inj] at hv
    cases more with
    | nil => rw [List.append_nil]
    | cons c more =>
        obtain ⟨rest, rfl⟩ := hv
        rw [run_append, hread, Option.bind_some, runFrom_cons, ends.transition_eq_none wf] at hrun
        cases hrun

end Ends

/-! ### The record -/

/-- A symbol that is foreign to the automaton ends a run before an edge is looked for. -/
theorem traceFrom_foreign (h : c ∉ dfa.alphabet) (s k : Nat) (rest : List Char) :
    dfa.traceFrom s k (c :: rest) = ⟨[], .unknownSymbol k c⟩ := by
  rw [traceFrom, if_pos]
  rwa [Bool.not_eq_true', ← Bool.not_eq_true, Std.ExtTreeSet.contains_iff_mem]

/-- A symbol of the alphabet is read along the edge under it, if there is one. -/
theorem traceFrom_known (h : c ∈ dfa.alphabet) (s k : Nat) (rest : List Char) :
    dfa.traceFrom s k (c :: rest) =
      match dfa.transition s c with
      | none => ⟨[], .noTransition k s c⟩
      | some next =>
        ⟨⟨s, c, next⟩ :: (dfa.traceFrom next (k + 1) rest).steps,
          (dfa.traceFrom next (k + 1) rest).outcome⟩ := by
  rw [traceFrom, Std.ExtTreeSet.contains_iff_mem.2 h]
  cases dfa.transition s c <;> rfl

/-- **A record is a walk over a first part of the input, and says why it ends.**  The positions
count from `k`, the number of symbols before. -/
theorem traceFrom_spec (dfa : Dfa) (s k : Nat) (w : List Char) :
    ∃ last rest, dfa.Walk s (dfa.traceFrom s k w).steps last ∧
      w = (dfa.traceFrom s k w).steps.map (·.symbol) ++ rest ∧
      dfa.Ends last (k + (dfa.traceFrom s k w).steps.length) rest
        (dfa.traceFrom s k w).outcome := by
  induction w generalizing s k with
  | nil =>
      refine ⟨s, [], .nil s, rfl, ?_⟩
      cases hacc : dfa.isAccepting s with
      | true => simpa [traceFrom, hacc] using Ends.accepted hacc
      | false => simpa [traceFrom, hacc] using Ends.rejected hacc
  | cons c w ih =>
      by_cases known : c ∈ dfa.alphabet
      · rw [traceFrom_known known]
        cases edge : dfa.transition s c with
        | none => exact ⟨s, c :: w, .nil s, rfl, .noTransition known edge⟩
        | some next =>
            obtain ⟨last, rest, walk, hw, ends⟩ := ih next (k + 1)
            refine ⟨last, rest, .cons edge walk, congrArg (c :: ·) hw, ?_⟩
            rwa [List.length_cons, Nat.add_comm _ 1, ← Nat.add_assoc]
      · rw [traceFrom_foreign known]
        exact ⟨s, c :: w, .nil s, rfl, .unknownSymbol known⟩

/-- In a complete automaton that has a state, no run ends for want of an edge. -/
theorem Built.trace_ne_noTransition (built : dfa.Built) (hpos : 0 < dfa.numStates)
    (complete : dfa.isComplete = true) (w : List Char) (position state : Nat) (symbol : Char) :
    (dfa.trace w).outcome ≠ .noTransition position state symbol := by
  obtain ⟨last, rest, walk, -, ends⟩ := dfa.traceFrom_spec dfa.start 0 w
  have wf := built.wellFormed
  exact ends.ne_noTransition ((isComplete_iff wf).1 complete) (walk.lt wf (wf.start_lt hpos)) _ _ _

/-- **What the record of a run says.**  It says that the input is accepted iff it is.  Its steps
are edges, one after another from the start state on, under the symbols of a first part of the
input, and no longer part of the input leads anywhere.  All of the input was read iff the record
says that it is accepted, or rejected in the last state.  Otherwise the record names the symbol
that is next, and its position: as unknown iff it is not in the alphabet, and else as without an
edge in the last state.  The latter does not happen in a complete automaton that has a state, such
as that of a pattern. -/
theorem Built.trace_records_run (built : dfa.Built) (w : List Char) :
    let record := dfa.trace w
    let count := record.steps.length
    record.isAccepted = dfa.accepts w ∧
    (∃ last, dfa.Walk dfa.start record.steps last ∧
      record.steps.map (·.symbol) = w.take count ∧
      (∀ v, v <+: w → (dfa.run v).isSome = true → v.length ≤ count) ∧
      (count = w.length ↔ record.outcome = .accepted ∨ record.outcome = .rejected last) ∧
      (count ≠ w.length → ∃ c, w[count]? = some c ∧
        (record.outcome = .unknownSymbol count c ↔ c ∉ dfa.alphabet) ∧
        (record.outcome = .noTransition count last c ↔ c ∈ dfa.alphabet))) ∧
    (dfa.isComplete = true → 0 < dfa.numStates →
      ∀ position state c, record.outcome ≠ .noTransition position state c) ∧
    (∀ config pattern converted, ofPattern config pattern = .ok converted →
      converted.Built ∧ converted.isComplete = true ∧ 0 < converted.numStates ∧
      ∀ v position state c, (converted.trace v).outcome ≠ .noTransition position state c) := by
  intro record count
  have wf := built.wellFormed
  obtain ⟨last, rest, walk, hw, ends⟩ := dfa.traceFrom_spec dfa.start 0 w
  change dfa.Walk dfa.start record.steps last at walk
  change w = record.steps.map (·.symbol) ++ rest at hw
  rw [Nat.zero_add] at ends
  change dfa.Ends last count rest record.outcome at ends
  have hread : dfa.run (record.steps.map (·.symbol)) = some last := walk.runFrom_eq
  have hcount : (record.steps.map (·.symbol)).length = count := List.length_map _
  -- the record is as long as the input iff nothing of it is left
  have hlength : count = w.length ↔ rest = [] := by
    rw [hw, List.length_append, hcount, ← List.length_eq_zero_iff]
    omega
  refine ⟨?_, ⟨last, walk, ?_, ?_, hlength.trans ends.rest_eq_nil_iff, ?_⟩, ?_, ?_⟩
  · rw [hw, accepts_append hread]
    exact ends.isAccepted_eq wf
  · rw [hw, ← hcount, List.take_left]
  · intro v hv hrun
    rw [hw] at hv
    exact hcount ▸ (ends.isPrefix_of_run wf hread hv hrun).length_le
  · intro hcut
    cases rest with
    | nil => exact absurd (hlength.2 rfl) hcut
    | cons c rest =>
        refine ⟨c, ?_, ends.before_symbol⟩
        rw [hw, ← hcount, List.getElem?_append_right (Nat.le_refl _), Nat.sub_self]
        rfl
  · exact fun complete hpos => built.trace_ne_noTransition hpos complete w
  · intro config pattern converted h
    obtain ⟨e, he⟩ := exists_derivation_of_ofPattern h
    -- the automaton of a pattern is complete and has a state, so it is covered by what was shown
    obtain ⟨canonical, total, -, -⟩ := minimalFor_of_ofPattern h he
    have complete := (isComplete_iff canonical.built.wellFormed).2 total
    exact ⟨canonical.built, complete, canonical.pos,
      canonical.built.trace_ne_noTransition canonical.pos complete⟩

/-- One step, and then a symbol under which the state has no edge. -/
theorem trace_records_run_of_edge :
    let dfa := (withAlphabet (.ofList ['b'])).after
      [.addState false, .addState true, .addTransition 0 'a' 1]
    let record := dfa.trace ['a', 'b']
    dfa.Built ∧ record.isAccepted = dfa.accepts ['a', 'b'] ∧
      ∃ last, dfa.Walk dfa.start record.steps last ∧
        (∀ v, v <+: ['a', 'b'] → (dfa.run v).isSome = true → v.length ≤ 1) ∧
        record.outcome = .noTransition 1 last 'b' := by
  intro dfa record
  have built : dfa.Built := (Built.withAlphabet _).after (by decide)
  have hcount : record.steps.length = 1 := by decide
  have known : 'b' ∈ dfa.alphabet := by decide
  obtain ⟨accepted, ⟨last, walk, -, longest, -, stopped⟩, -⟩ := built.trace_records_run ['a', 'b']
  rw [show (dfa.trace ['a', 'b']).steps.length = 1 from hcount] at longest stopped
  obtain ⟨c, hc, -, missing⟩ := stopped (by decide)
  cases hc
  exact ⟨built, accepted, last, walk, longest, missing.2 known⟩

/-- **A complete automaton may lack an edge**: without states none is missing, and yet a run ends
for want of one. -/
theorem noTransition_of_no_states :
    let dfa := withAlphabet (.ofList ['a'])
    dfa.Built ∧ dfa.isComplete = true ∧ (dfa.trace ['a']).outcome = .noTransition 0 0 'a' :=
  ⟨Built.withAlphabet _, by decide, by decide⟩

end PatternAutomata.Dfa
