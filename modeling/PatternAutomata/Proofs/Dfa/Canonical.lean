import Mathlib.Computability.DFA
import Mathlib.Data.Fintype.Card
import Mathlib.Data.List.Shortlex
import PatternAutomata.Proofs.Dfa.Completion
import PatternAutomata.Proofs.Dfa.Reachability

/-!
# Canonical automata

An automaton is canonical if nothing in it is left to choice: every state is reached, no two
states accept the same words, and the states are numbered breadth first.  Canonical automata with
the same language, that leave the same words without a run, are the same automaton
(`Dfa.Canonical.same`), and none that accepts the same words is smaller
(`Dfa.Canonical.numStates_le_card`).

These two theorems are where all uniqueness in the library comes from.  To show that two
constructions end in the same automaton it is enough to show that each ends in a canonical one for
the right language; the constructions are never compared step by step.

## Breadth first without a search

Breadth first search with the symbols in ascending order meets the states in the order of the
least words that lead to them, where a shorter word comes before a longer one and words of one
length are ordered by their symbols.  `Dfa.BreadthFirst` says this without mentioning a search,
and so depends on nothing but the words that lead to each state.  That is why two numberings of
the same states cannot differ.

## How uniqueness is proved

Let two canonical automata accept the same words and have runs for the same words.  A word leads
to some state in each, and states that accept the same words are one state, so words that meet in
one automaton meet in the other (`Dfa.Canonical.run_eq_of_run_eq`).  That leaves a bijection of
the states, which could still be any permutation.  `Dfa.Canonical.run_eq_some` shows that it is
the identity, by induction on the number of the state and then on the word in the order of
discovery: a smaller number is taken already, and a greater one would be met before a lesser word.

## Which words have a run

Accepting the same words is not enough.  An automaton may have a state from which nothing is
accepted where another has no edge, and both may be canonical.  So the theorem asks for the runs
as well; for complete automata over the same alphabet that is the same for all of them, and for
automata without dead states it follows from the language.
-/

namespace PatternAutomata

open List (Shortlex)

namespace Dfa

variable {d e : Dfa}

/-! ### The three conditions -/

/-- Every state is reached by some word.  Minimality fails without this for a reason that the
language cannot show. -/
def Accessible (d : Dfa) : Prop :=
  ∀ s, s < d.numStates → ∃ w, d.run w = some s

/-- Any two states are told apart by some word.  As a word may end in a missing edge, a state
without edges and a dead one are not told apart. -/
def Reduced (d : Dfa) : Prop :=
  ∀ s t, s < d.numStates → t < d.numStates → s ≠ t → ∃ w, d.Separates s t w

/-- **The states are numbered breadth first**: whatever word leads to a state, a lesser word leads
to each state of smaller number.  Shorter words are lesser, and words of one length are compared
symbol by symbol. -/
def BreadthFirst (d : Dfa) : Prop :=
  ∀ s t, s < t → ∀ w, d.run w = some t → ∃ v, d.run v = some s ∧ Shortlex (· < ·) v w

/-- An automaton in which nothing is left to choice.  It has a state, so the degenerate automaton
that accepts nothing by having no states is not among the canonical ones. -/
structure Canonical (d : Dfa) : Prop where
  built : d.Built
  pos : 0 < d.numStates
  start_eq : d.start = 0
  accessible : d.Accessible
  reduced : d.Reduced
  breadthFirst : d.BreadthFirst

/-- The same automaton, up to what its states stand for.  The fields are what can be asked of an
automaton from outside; the order in which edges were filed at their targets is not among them. -/
structure Same (d e : Dfa) : Prop where
  numStates_eq : d.numStates = e.numStates
  start_eq : d.start = e.start
  acceptStates_eq : d.acceptStates = e.acceptStates
  alphabet_eq : d.alphabet = e.alphabet
  transitions_eq : d.transitions = e.transitions

theorem Same.refl (d : Dfa) : d.Same d := ⟨rfl, rfl, rfl, rfl, rfl⟩

theorem Same.symm (h : d.Same e) : e.Same d :=
  ⟨h.numStates_eq.symm, h.start_eq.symm, h.acceptStates_eq.symm, h.alphabet_eq.symm,
    h.transitions_eq.symm⟩

theorem Same.trans {a : Dfa} (h : d.Same e) (h' : e.Same a) : d.Same a :=
  ⟨h.numStates_eq.trans h'.numStates_eq, h.start_eq.trans h'.start_eq,
    h.acceptStates_eq.trans h'.acceptStates_eq, h.alphabet_eq.trans h'.alphabet_eq,
    h.transitions_eq.trans h'.transitions_eq⟩

/-! ### Runs of well formed automata -/

/-- Only words over the alphabet lead anywhere. -/
theorem WellFormed.overAlphabet_of_runFrom (wf : d.WellFormed) {s t : Nat} {w : List Char}
    (h : d.runFrom s w = some t) : d.OverAlphabet w := by
  induction w generalizing s with
  | nil => intro c hc; cases hc
  | cons c w ih =>
      rw [runFrom_cons, Option.bind_eq_some_iff] at h
      obtain ⟨u, hu, h⟩ := h
      intro b hb
      rcases List.mem_cons.1 hb with rfl | hb
      · exact wf.mem_alphabet hu
      · exact ih h b hb

theorem WellFormed.overAlphabet_of_acceptsFrom (wf : d.WellFormed) {s : Nat} {w : List Char}
    (h : d.acceptsFrom s w = true) : d.OverAlphabet w := by
  obtain ⟨t, ht, -⟩ := acceptsFrom_iff.1 h
  exact wf.overAlphabet_of_runFrom ht

/-- A word that tells two states apart is a word over the alphabet, since one of them
accepts it. -/
theorem WellFormed.overAlphabet_of_separates (wf : d.WellFormed) {s t : Nat} {w : List Char}
    (h : d.Separates s t w) : d.OverAlphabet w := by
  cases hs : d.acceptsFrom s w with
  | true => exact wf.overAlphabet_of_acceptsFrom hs
  | false =>
      cases ht : d.acceptsFrom t w with
      | true => exact wf.overAlphabet_of_acceptsFrom ht
      | false => exact absurd (hs.trans ht.symm) h

/-- A complete automaton gets through every word over the alphabet. -/
theorem Total.exists_run (total : d.Total) (wf : d.WellFormed) (hpos : 0 < d.numStates)
    {w : List Char} (hw : d.OverAlphabet w) : ∃ t, d.run w = some t := by
  have runs : ∀ s, s < d.numStates → ∃ t, d.runFrom s w = some t := by
    induction w with
    | nil => exact fun s _ => ⟨s, rfl⟩
    | cons c w ih =>
        intro s hs
        obtain ⟨u, hu⟩ := total s hs c (hw c List.mem_cons_self)
        obtain ⟨t, ht⟩ := ih (fun b hb => hw b (List.mem_cons_of_mem _ hb)) u
          (wf.target_lt hu)
        exact ⟨t, by rw [runFrom_cons, hu]; exact ht⟩
  exact runs d.start (wf.start_lt hpos)

/-- Over a complete automaton exactly the words over the alphabet have a run. -/
theorem Total.run_isSome_iff (total : d.Total) (wf : d.WellFormed) (hpos : 0 < d.numStates)
    (w : List Char) : (d.run w).isSome = true ↔ d.OverAlphabet w := by
  rw [Option.isSome_iff_exists]
  constructor
  · rintro ⟨t, ht⟩
    exact wf.overAlphabet_of_runFrom ht
  · exact total.exists_run wf hpos

/-- The state that takes the missing edges is reached if there are any, and all states were.  An
automaton that is complete would get a state that nothing leads to. -/
theorem Sunk.accessible (h : Sunk d e) (total : ¬ d.Total) (acc : d.Accessible) :
    e.Accessible := by
  intro s hs
  rw [h.numStates_eq] at hs
  rcases Nat.lt_or_eq_of_le (Nat.le_of_lt_succ hs) with hs | rfl
  · obtain ⟨w, hw⟩ := acc s hs
    exact ⟨w, h.run_of_run hw⟩
  · unfold Total at total
    push Not at total
    obtain ⟨r, hr, c, hc, hnone⟩ := total
    obtain ⟨w, hw⟩ := acc r hr
    refine ⟨w ++ [c], ?_⟩
    rw [run_concat, h.run_of_run hw]
    exact (h.transition_iff r c _).2 (Or.inr
      ⟨Nat.le_of_lt hr, hc, Option.eq_none_iff_forall_ne_some.2 hnone, rfl⟩)

/-- An automaton without symbols whose states are reached has one state. -/
theorem Accessible.numStates_eq_one (acc : d.Accessible) (wf : d.WellFormed)
    (hpos : 0 < d.numStates) (hempty : d.alphabet = ∅) : d.numStates = 1 := by
  have only : ∀ s, s < d.numStates → s = d.start := by
    intro s hs
    obtain ⟨w, hw⟩ := acc s hs
    cases w with
    | nil => exact (Option.some.inj hw).symm
    | cons c w =>
        have := wf.overAlphabet_of_runFrom hw c List.mem_cons_self
        rw [hempty] at this
        exact absurd this Std.ExtTreeSet.not_mem_empty
  by_contra hne
  have h0 := only 0 hpos
  have h1 := only 1 (by omega)
  omega

/-! ### Canonical automata are determined by what they accept -/

/-- The order of words in which states are discovered has no infinite descent.  Plain dictionary
order has, which is why lengths are compared first. -/
theorem wellFounded_shortlex : WellFounded (Shortlex fun c c' : Char => c < c') :=
  Shortlex.wf (Subrelation.wf (fun {_ _} h => UInt32.lt_iff_toNat_lt.1 (Char.lt_def.1 h))
    (InvImage.wf (fun c : Char => c.val.toNat) Nat.lt_wfRel.wf))

theorem shortlex_trans {u v w : List Char} (huv : Shortlex (· < ·) u v)
    (hvw : Shortlex (· < ·) v w) : Shortlex (· < ·) u w := by
  have : IsWellOrder (List Char) (Shortlex fun c c' : Char => c < c') :=
    { wf := wellFounded_shortlex, trichotomous := Shortlex.trichotomous.trichotomous }
  exact IsTrans.trans _ _ _ huv hvw

/-- Words that lead to one state of `d` lead to one state of `e`, if `e` tells its states apart
and accepts the same words.  Only this much of `e` being canonical is used. -/
theorem Canonical.run_eq_of_run_eq (he : e.Canonical)
    (lang : ∀ w, d.accepts w = e.accepts w) {v w : List Char} {s t t' : Nat}
    (hv : d.run v = some s) (hw : d.run w = some s) (hv' : e.run v = some t)
    (hw' : e.run w = some t') : t = t' := by
  by_contra hne
  have wf := he.built.wellFormed
  obtain ⟨u, hu⟩ := he.reduced t t' (wf.run_lt he.pos hv') (wf.run_lt he.pos hw') hne
  refine hu ?_
  calc e.acceptsFrom t u = e.accepts (v ++ u) := (accepts_append hv' u).symm
    _ = d.accepts (v ++ u) := (lang _).symm
    _ = d.acceptsFrom s u := accepts_append hv u
    _ = d.accepts (w ++ u) := (accepts_append hw u).symm
    _ = e.accepts (w ++ u) := lang _
    _ = e.acceptsFrom t' u := accepts_append hw' u

/-- A word leads to the state of the same number in both automata.  This is where the numbering
comes in, and the only place. -/
theorem Canonical.run_eq_some (hd : d.Canonical) (he : e.Canonical)
    (lang : ∀ w, d.accepts w = e.accepts w)
    (runs : ∀ w, (d.run w).isSome = (e.run w).isSome) :
    ∀ n w, d.run w = some n → e.run w = some n := by
  have runs_to : ∀ w s, d.run w = some s → ∃ t, e.run w = some t := fun w s h => by
    rw [← Option.isSome_iff_exists, ← runs, h]
    rfl
  have runs_from : ∀ w t, e.run w = some t → ∃ s, d.run w = some s := fun w t h => by
    rw [← Option.isSome_iff_exists, runs, h]
    rfl
  -- by the number in `d`, and for each number by the words that lead to it
  intro n
  induction n using Nat.strong_induction_on with
  | _ n ihn =>
      intro w
      induction w using wellFounded_shortlex.induction with
      | _ w ihw =>
          intro hw
          obtain ⟨m, hm⟩ := runs_to w n hw
          rcases Nat.lt_trichotomy m n with hlt | rfl | hgt
          · -- a smaller number is taken by the state of `d` that has it
            have hmd : m < d.numStates :=
              hlt.trans (hd.built.wellFormed.run_lt hd.pos hw)
            obtain ⟨u, hu⟩ := hd.accessible m hmd
            have := hd.run_eq_of_run_eq (fun w => (lang w).symm) (ihn m hlt u hu) hm hu hw
            exact absurd this (Nat.ne_of_lt hlt)
          · exact hm
          · -- a greater number would be discovered before a lesser word to the same state
            obtain ⟨v, hv, hvw⟩ := he.breadthFirst n m hgt w hm
            obtain ⟨k, hk⟩ := runs_from v n hv
            rcases Nat.lt_trichotomy k n with hkn | hkn | hkn
            · have := ihn k hkn v hk
              rw [hv, Option.some.injEq] at this
              exact absurd this.symm (Nat.ne_of_lt hkn)
            · rw [hkn] at hk
              rw [he.run_eq_of_run_eq lang hk hw hv hm]
              exact hm
            · obtain ⟨u, hu, huv⟩ := hd.breadthFirst n k hkn v hk
              have hu' := ihw u (shortlex_trans huv hvw) hu
              rw [he.run_eq_of_run_eq lang hw hu hm hu'] at hm
              exact hm

/-- States with the same edges have the same edges on file. -/
theorem moves_eq_of_transition_eq {i : Nat} (hi : i < d.states.size) (hi' : i < e.states.size)
    (h : ∀ c, d.transition i c = e.transition i c) : d.states[i].moves = e.states[i].moves := by
  refine Std.ExtTreeMap.ext_getElem? fun c => ?_
  have hstep := h c
  unfold transition at hstep
  rw [Array.getElem?_eq_getElem hi, Array.getElem?_eq_getElem hi'] at hstep
  exact hstep

theorem map_moves_eq_of_transition_eq (hn : d.numStates = e.numStates)
    (h : ∀ s c, d.transition s c = e.transition s c) :
    d.states.toList.map State.moves = e.states.toList.map State.moves := by
  refine List.ext_getElem (by simpa [numStates] using hn) fun i hi hi' => ?_
  simp only [List.length_map, Array.length_toList] at hi hi'
  rw [List.getElem_map, List.getElem_map]
  exact moves_eq_of_transition_eq hi hi' (h i)

/-- Whatever is listed by what is on file for the states is the same where the edges are. -/
theorem flatMap_numbered_eq_of_transition_eq {β : Type} (hn : d.numStates = e.numStates)
    (h : ∀ s c, d.transition s c = e.transition s c)
    (list : Nat → Std.ExtTreeMap Char Nat → List β) :
    (d.numbered.flatMap fun row => list row.1 row.2.moves) =
      e.numbered.flatMap fun row => list row.1 row.2.moves := by
  have shape : ∀ a : Dfa, (a.numbered.flatMap fun row => list row.1 row.2.moves) =
      (a.states.toList.map State.moves).zipIdx.flatMap fun row => list row.2 row.1 := by
    intro a
    rw [numbered, List.flatMap_map, List.zipIdx_map, List.flatMap_map]
    rfl
  rw [shape d, shape e, map_moves_eq_of_transition_eq hn h]

theorem transitions_eq_of_transition_eq (hn : d.numStates = e.numStates)
    (h : ∀ s c, d.transition s c = e.transition s c) : d.transitions = e.transitions := by
  have rows := flatMap_numbered_eq_of_transition_eq hn h fun number moves =>
    moves.toList.map fun move => (number, move.1, move.2)
  exact rows

/-- The same automaton has the same edges. -/
theorem Same.transition_eq (h : d.Same e) (s : Nat) (c : Char) :
    d.transition s c = e.transition s c := by
  ext t
  rw [← mem_transitions, ← mem_transitions, h.transitions_eq]

/-- The same automaton accepts in the same states. -/
theorem Same.isAccepting_eq (h : d.Same e) (s : Nat) : d.isAccepting s = e.isAccepting s := by
  rw [Bool.eq_iff_iff, ← mem_acceptStates, ← mem_acceptStates, h.acceptStates_eq]

/-- The same automaton accepts the same words from its states. -/
theorem Same.acceptsFrom_eq (h : d.Same e) (s : Nat) (w : List Char) :
    d.acceptsFrom s w = e.acceptsFrom s w := by
  induction w generalizing s with
  | nil => exact h.isAccepting_eq s
  | cons c w ih =>
      rw [acceptsFrom_cons, acceptsFrom_cons, h.transition_eq]
      cases e.transition s c with
      | none => rfl
      | some t => exact ih t

/-- **Canonical automata are determined by what they accept**, and by which words have no run.
Their numbers, their edges and the order of these are then the same. -/
theorem Canonical.same (hd : d.Canonical) (he : e.Canonical)
    (alphabet : d.alphabet = e.alphabet) (lang : ∀ w, d.accepts w = e.accepts w)
    (runs : ∀ w, (d.run w).isSome = (e.run w).isSome) : d.Same e := by
  have forth := hd.run_eq_some he lang runs
  have back := he.run_eq_some hd (fun w => (lang w).symm) fun w => (runs w).symm
  have run_eq : ∀ w, d.run w = e.run w := by
    intro w
    cases hw : d.run w with
    | some n => exact (forth n w hw).symm
    | none =>
        cases hw' : e.run w with
        | none => rfl
        | some n => rw [back n w hw'] at hw; cases hw
  -- a state too many would be reached by a word that leads to no such state in the other
  have size : d.numStates = e.numStates := by
    refine Nat.le_antisymm (Nat.le_of_not_lt fun h => ?_) (Nat.le_of_not_lt fun h => ?_)
    · obtain ⟨w, hw⟩ := hd.accessible _ h
      exact Nat.lt_irrefl _ (he.built.wellFormed.run_lt he.pos (run_eq w ▸ hw))
    · obtain ⟨w, hw⟩ := he.accessible _ h
      exact Nat.lt_irrefl _ (hd.built.wellFormed.run_lt hd.pos (run_eq w ▸ hw))
  refine ⟨size, hd.start_eq.trans he.start_eq.symm, ?_, alphabet,
    transitions_eq_of_transition_eq size fun s c => ?_⟩
  · unfold acceptStates
    rw [size]
    refine List.filter_congr fun s hs => ?_
    obtain ⟨w, hw⟩ := hd.accessible s (size ▸ List.mem_range.1 hs)
    have hacc := lang w
    rw [← List.append_nil w, accepts_append hw, accepts_append (run_eq w ▸ hw)] at hacc
    exact hacc
  -- an edge of a state is told by the word that leads to the state
  · rcases Nat.lt_or_ge s d.numStates with hs | hs
    · obtain ⟨w, hw⟩ := hd.accessible s hs
      have hstep := run_eq (w ++ [c])
      rw [run_concat, run_concat, ← run_eq w, hw] at hstep
      exact hstep
    · rw [transition_eq_none_of_le hs, transition_eq_none_of_le (size ▸ hs)]

/-! ### Canonical automata are minimal -/

/-- **No automaton over the alphabet that accepts the same words has fewer states.**  The rival is
any automaton with a transition function in the sense of the library, with any type of states. -/
theorem Canonical.numStates_le_card (hd : d.Canonical) {σ : Type*} [Fintype σ]
    (M : DFA {c // c ∈ d.alphabet} σ)
    (lang : ∀ w, w ∈ M.accepts ↔ d.accepts (w.map Subtype.val) = true) :
    d.numStates ≤ Fintype.card σ := by
  classical
  have wf := hd.built.wellFormed
  have lift : ∀ w, d.OverAlphabet w →
      ∃ v : List {c // c ∈ d.alphabet}, v.map Subtype.val = w := fun w hw =>
    ⟨w.attachWith _ hw, List.attachWith_map_subtype_val hw⟩
  have access : ∀ s : Fin d.numStates,
      ∃ v : List {c // c ∈ d.alphabet}, d.run (v.map Subtype.val) = some s.1 := by
    intro s
    obtain ⟨w, hw⟩ := hd.accessible s.1 s.2
    obtain ⟨v, rfl⟩ := lift w (wf.overAlphabet_of_runFrom hw)
    exact ⟨v, hw⟩
  choose word hword using access
  have injective : Function.Injective fun s => M.eval (word s) := by
    intro s t heq
    by_contra hne
    obtain ⟨w, hw⟩ := hd.reduced s.1 t.1 s.2 t.2 fun h => hne (Fin.ext h)
    obtain ⟨u, rfl⟩ := lift w (wf.overAlphabet_of_separates hw)
    have accepted : ∀ r : Fin d.numStates,
        d.acceptsFrom r.1 (u.map Subtype.val) = true ↔ M.evalFrom (M.eval (word r)) u ∈ M.accept :=
      fun r => by
        rw [← accepts_append (hword r), ← List.map_append, ← lang, DFA.mem_accepts, DFA.eval,
          DFA.evalFrom_of_append]
    refine hw (Bool.eq_iff_iff.2 ?_)
    rw [accepted s, accepted t, show M.eval (word s) = M.eval (word t) from heq]
  simpa using Fintype.card_le_of_injective _ injective

/-! ### Complete automata as rivals -/

/-- A complete automaton as one with a transition function.  Completeness gives the function its
values, and being well formed keeps them among the states. -/
def toDFA (d : Dfa) (wf : d.WellFormed) (pos : 0 < d.numStates) (total : d.Total) :
    DFA {c // c ∈ d.alphabet} (Fin d.numStates) where
  step s c :=
    have defined := Option.isSome_iff_exists.2 (total s s.2 c c.2)
    ⟨(d.transition s c).get defined, wf.target_lt (Option.some_get defined).symm⟩
  start := ⟨d.start, wf.start_lt pos⟩
  accept := {s | d.isAccepting s = true}

/-- The transition function leads where the edges lead. -/
theorem runFrom_toDFA (wf : d.WellFormed) (pos : 0 < d.numStates) (total : d.Total)
    (s : Fin d.numStates) (w : List {c // c ∈ d.alphabet}) :
    d.runFrom s (w.map Subtype.val) = some ((d.toDFA wf pos total).evalFrom s w).1 := by
  induction w generalizing s with
  | nil => rfl
  | cons c w ih =>
      rw [List.map_cons, runFrom_cons, DFA.evalFrom_cons, ← ih]
      obtain ⟨t, ht⟩ := total s s.2 c c.2
      simp [toDFA, ht]

theorem mem_accepts_toDFA (wf : d.WellFormed) (pos : 0 < d.numStates) (total : d.Total)
    (w : List {c // c ∈ d.alphabet}) :
    w ∈ (d.toDFA wf pos total).accepts ↔ d.accepts (w.map Subtype.val) = true := by
  have hrun := runFrom_toDFA wf pos total ⟨d.start, wf.start_lt pos⟩ w
  rw [DFA.mem_accepts, accepts, acceptsFrom_iff, hrun]
  simp [toDFA, DFA.eval]

/-- **No complete automaton for the same words over the same alphabet has fewer states.** -/
theorem Canonical.numStates_le (hd : d.Canonical) (wf : e.WellFormed) (pos : 0 < e.numStates)
    (total : e.Total) (alphabet : e.alphabet = d.alphabet)
    (lang : ∀ w, e.accepts w = d.accepts w) : d.numStates ≤ e.numStates := by
  have rival : ∀ {a : Alphabet}, a = d.alphabet → ∀ M : DFA {c // c ∈ a} (Fin e.numStates),
      (∀ w, w ∈ M.accepts ↔ d.accepts (w.map Subtype.val) = true) →
      d.numStates ≤ Fintype.card (Fin e.numStates) := by
    rintro _ rfl M hM
    exact hd.numStates_le_card M hM
  rw [← Fintype.card_fin e.numStates]
  refine rival alphabet (e.toDFA wf pos total) fun w => ?_
  rw [mem_accepts_toDFA, lang]

end Dfa

end PatternAutomata
