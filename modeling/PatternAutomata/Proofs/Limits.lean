import Mathlib
import PatternAutomata.Proofs.Dfa.Limits
import PatternAutomata.Proofs.Room
import PatternAutomata.Proofs.Strategy

/-!
# What limits decide

A limit decides whether there is an automaton, never which.  What is made within some limits is
made alike within higher ones (`limits_only_refuse`).

## The way may change, but it does not

A higher limit could let a pattern of a simple shape succeed directly that was compiled by the
general construction before.  The two automata differ in what they remember of their origin, so
the result would not be the same in every respect.  But where the general construction succeeds,
the direct one has the room it needs, and it would have been taken before
(`Dfa.direct?_eq_none_raise`).  In the same way a guess of dense sets may run out of capacity
under one configuration only; this makes no difference because guesses never do.

## Step by step

Every check passes under a higher limit if it passes under the lower one, and
`Error.Upto Error.IsLimit` carries this through each construction: the outcome is the same, unless
the lower limit refuses.  The check of the depth and that of classes have limits of their own, and
both are raised together with the ceilings on states.
-/

namespace PatternAutomata

open Error (Upto IsLimit)

/-! ### Checks -/

section

variable {limit limit' : Nat}

theorem Item.addTo_raise (hlimit : limit ≤ limit') (start : Nat) (members : Alphabet)
    (item : Item) :
    Upto IsLimit (item.addTo limit start members) (item.addTo limit' start members) := by
  cases item with
  | single p => exact Error.upto_of_limit hlimit _ (.refl _)
  | range first last =>
      simp only [addTo]
      by_cases hdescending : last.char < first.char
      · rw [if_pos hdescending, if_pos hdescending]
        exact .refl _
      · rw [if_neg hdescending, if_neg hdescending]
        exact Error.upto_of_limit hlimit _ (Error.upto_of_limit hlimit _ (.refl _))

theorem Bracket.members_raise (hlimit : limit ≤ limit') (b : Bracket) (start : Nat) :
    Upto IsLimit (b.members limit start) (b.members limit' start) := by
  by_cases hhead : (b.pieces.map Piece.member).head? = some .caret
  · obtain ⟨_ | ⟨p, ps⟩, ending⟩ := b
    · cases hhead
    · have hcaret : p.isCaret = true := by
        rw [Piece.isCaret_iff]
        simpa using hhead
      refine .inl ?_
      simp only [members, hcaret, if_true]
      rfl
  · rw [members_of_head_ne hhead, members_of_head_ne hhead]
    exact (Upto.foldlM (Item.addTo_raise hlimit start) b.items ∅).bind fun _ => .refl _

theorem Bracket.membersOf_raise (hlimit : limit ≤ limit') (text : List Char) :
    Upto IsLimit (membersOf limit text) (membersOf limit' text) := by
  unfold membersOf
  split
  · exact (members_raise hlimit _ _).bind fun _ => .refl _
  · exact .refl _

theorem Assembly.checkDepth_raise (hlimit : limit ≤ limit') (tokens : List (Nat × Token))
    (depth : Nat) :
    Upto IsLimit (checkDepth limit depth tokens) (checkDepth limit' depth tokens) := by
  induction tokens generalizing depth with
  | nil => exact .refl _
  | cons token rest ih =>
      obtain ⟨offset, token⟩ := token
      cases token with
      | opening => exact Error.upto_of_limit hlimit _ (ih _)
      | closing => exact ih _
      | symbol c => exact ih _
      | dot => exact ih _
      | bar => exact ih _
      | repetition sign => exact ih _
      | bracket b => exact ih _
      | dangling => exact ih _

theorem Ceiling.inStep_raise (hlimit : limit ≤ limit') (strategy : Strategy) :
    Ceiling.InStep IsLimit ⟨limit, strategy⟩ ⟨limit', strategy⟩ where
  reserve_upto states := Error.upto_of_limit hlimit states (.refl _)
  check_upto _ := .refl _

end

/-! ### Configurations -/

/-- `config.Within config'`: the configurations differ in their limits only, and no limit of the
second is lower.  The threshold for dense sets is not a limit, and has to be the same. -/
structure Config.Within (config config' : Config) : Prop where
  dotAlphabet_eq : config.dotAlphabet = config'.dotAlphabet
  strategy_eq : config.strategy = config'.strategy
  bitsetThreshold_eq : config.bitsetThreshold = config'.bitsetThreshold
  enableFastPaths_eq : config.enableFastPaths = config'.enableFastPaths
  maxDfaStates_le : config.maxDfaStates ≤ config'.maxDfaStates
  maxNfaStates_le : config.maxNfaStates ≤ config'.maxNfaStates
  maxNestingDepth_le : config.maxNestingDepth ≤ config'.maxNestingDepth
  maxClassSize_le : config.maxClassSize ≤ config'.maxClassSize

variable {config config' : Config} {pattern : List Char}

/-- **Patterns are read alike** under higher limits, unless a lower one refuses them. -/
theorem Config.Within.inStep (h : config.Within config') (strategy : Strategy) :
    InStep IsLimit config strategy config' strategy where
  dot_eq := h.dotAlphabet_eq
  members_upto := Bracket.members_raise h.maxClassSize_le
  depth_upto := Assembly.checkDepth_raise h.maxNestingDepth_le
  ceilings := Ceiling.inStep_raise h.maxNfaStates_le strategy

/-! ### The general construction -/

theorem Strategy.determinize_raise {limit limit' : Nat} (hlimit : limit ≤ limit')
    (strategy : Strategy) (nfa : Nfa) :
    Upto IsLimit (strategy.determinize nfa limit) (strategy.determinize nfa limit') := by
  rw [strategy.determinize_eq, strategy.determinize_eq]
  exact TransitionSystem.determinize_raise nfa.powerset_key_injective hlimit _ _

theorem Nfa.ofPattern_raise (h : config.Within config') (strategy : Strategy)
    (pattern : List Char) :
    Upto IsLimit (ofPattern config strategy pattern) (ofPattern config' strategy pattern) :=
  ((h.inStep strategy).parse_upto pattern).bind fun _ => .refl _

theorem Dfa.unminimizedWith_raise (h : config.Within config') (strategy : Strategy)
    (pattern : List Char) :
    Upto IsLimit (unminimizedWith config strategy pattern)
      (unminimizedWith config' strategy pattern) :=
  (Nfa.ofPattern_raise h strategy pattern).bind fun nfa =>
    strategy.determinize_raise h.maxDfaStates_le nfa

/-- **Patterns have the same automaton** before it is minimized.  A guess that runs out of
capacity under the first configuration only makes no difference, because guesses never do. -/
theorem Dfa.unminimized_raise (h : config.Within config') (pattern : List Char) :
    Upto IsLimit (unminimized config pattern) (unminimized config' pattern) := by
  rw [unminimized_eq, unminimized_eq, ← h.strategy_eq]
  exact unminimizedWith_raise h _ pattern

/-! ### Simple shapes -/

theorem Shape.outline_raise (h : config.Within config') (shape : Shape) :
    Upto IsLimit (shape.outline config) (shape.outline config') := by
  cases shape with
  | literal text => exact .refl _
  | anchoredStart text => exact .refl _
  | anchoredEnd text => exact .refl _
  | alternation left right => exact .refl _
  | star c => exact .refl _
  | bracket text => exact (Bracket.membersOf_raise h.maxClassSize_le text).bind fun _ => .refl _

theorem Shape.toDfa_raise (h : config.Within config') (shape : Shape) :
    Upto IsLimit (shape.toDfa config) (shape.toDfa config') := by
  refine (shape.outline_raise h).bind fun outline => (Upto.refl _).bind fun (whole, _) => ?_
  exact Error.upto_of_limit h.maxDfaStates_le _ (.refl _)

/-- **Patterns of a simple shape have the same automaton**, if it is made directly. -/
theorem Dfa.direct?_raise (h : config.Within config') {d : Dfa}
    (hd : direct? config pattern = some d) : direct? config' pattern = some d := by
  unfold direct? at hd ⊢
  cases hshape : Shape.ofPattern? pattern with
  | none =>
      rw [hshape] at hd
      cases hd
  | some shape =>
      simp only [hshape] at hd ⊢
      cases hdfa : shape.toDfa config with
      | ok m =>
          rw [hdfa] at hd
          rw [(shape.toDfa_raise h).eq_ok hdfa]
          exact hd
      | error e =>
          rw [hdfa] at hd
          cases hd

/-- Where the general construction succeeds, the direct one has failed for the shape of the
pattern only, which no limit changes. -/
theorem Dfa.direct?_eq_none_raise {u : Dfa} (hu : unminimized config pattern = .ok u)
    (hnone : direct? config pattern = none) (config' : Config) :
    direct? config' pattern = none := by
  unfold direct? at hnone ⊢
  cases hshape : Shape.ofPattern? pattern with
  | none => rfl
  | some shape =>
      obtain ⟨m, hm⟩ := Shape.exists_toDfa (Shape.ofPattern?_eq_some_iff.1 hshape) hu
      simp only [hshape, hm] at hnone
      cases hnone

/-! ### Whatever way -/

theorem Dfa.general_raise (h : config.Within config') (pattern : List Char) :
    Upto IsLimit (general config pattern) (general config' pattern) :=
  (unminimized_raise h pattern).bind fun _ => .refl _

theorem Dfa.ofPattern_raise (h : config.Within config') {d : Dfa}
    (hd : ofPattern config pattern = .ok d) : ofPattern config' pattern = .ok d := by
  unfold ofPattern at hd ⊢
  rw [← h.enableFastPaths_eq]
  cases hfast : config.enableFastPaths with
  | false =>
      rw [hfast] at hd
      exact (general_raise h pattern).eq_ok hd
  | true =>
      simp only [hfast, if_true] at hd ⊢
      cases hdirect : direct? config pattern with
      | some m =>
          rw [hdirect] at hd
          rw [direct?_raise h hdirect]
          exact hd
      | none =>
          rw [hdirect] at hd
          obtain ⟨u, hu, -⟩ := Error.bind_eq_ok_iff.1 hd
          rw [direct?_eq_none_raise hu hdirect config']
          exact (general_raise h pattern).eq_ok hd

theorem Nfa.minimalOfPattern_raise (h : config.Within config') (pattern : List Char) :
    Upto IsLimit (minimalOfPattern config pattern) (minimalOfPattern config' pattern) :=
  (ofPattern_raise h .hash pattern).bind fun nfa =>
    (Strategy.determinize_raise h.maxDfaStates_le .hash nfa).bind fun _ => .refl _

/-- **Limits only refuse.**  What is made of a pattern within some limits is made alike within
higher ones, with all that an automaton remembers of its origin: the automaton, the automaton
before it is minimized, and the nondeterministic automaton. -/
theorem limits_only_refuse (h : config.Within config') (pattern : List Char) :
    (∀ d, Dfa.ofPattern config pattern = .ok d → Dfa.ofPattern config' pattern = .ok d) ∧
    (∀ d, Dfa.unminimized config pattern = .ok d → Dfa.unminimized config' pattern = .ok d) ∧
    (∀ n, Nfa.minimalOfPattern config pattern = .ok n →
      Nfa.minimalOfPattern config' pattern = .ok n) :=
  ⟨fun _ hd => Dfa.ofPattern_raise h hd,
    fun _ hd => (Dfa.unminimized_raise h pattern).eq_ok hd,
    fun _ hn => (Nfa.minimalOfPattern_raise h pattern).eq_ok hn⟩

/-- Two words, for which there is just the room that the general construction takes. -/
theorem limits_only_refuse_of_words :
    let config : Config :=
      { dotAlphabet := ∅, maxDfaStates := 4, maxNfaStates := 6, maxNestingDepth := 0,
        maxClassSize := 0 }
    let config' : Config := { dotAlphabet := ∅ }
    let pattern := ['a', '|', 'b']
    config.Within config' ∧
    (∃ d, Dfa.ofPattern config pattern = .ok d ∧ Dfa.ofPattern config' pattern = .ok d) ∧
    (∃ d, Dfa.unminimized config pattern = .ok d ∧ Dfa.unminimized config' pattern = .ok d) ∧
    (∃ n, Nfa.minimalOfPattern config pattern = .ok n ∧
      Nfa.minimalOfPattern config' pattern = .ok n) := by
  intro config config' pattern
  have within : config.Within config' :=
    ⟨rfl, rfl, rfl, rfl, by decide, by decide, by decide, by decide⟩
  obtain ⟨hpattern, hunminimized, hminimal⟩ := limits_only_refuse within pattern
  obtain ⟨d, hd⟩ := Error.exists_ok_of_isSome
    (show (Dfa.ofPattern config pattern).toOption.isSome = true by cbv)
  obtain ⟨whole, hwhole⟩ := Error.exists_ok_of_isSome
    (show (Dfa.unminimized config pattern).toOption.isSome = true by cbv)
  obtain ⟨n, hn⟩ := Error.exists_ok_of_isSome
    (show (Nfa.minimalOfPattern config pattern).toOption.isSome = true by cbv)
  exact ⟨within, ⟨d, hd, hpattern d hd⟩, ⟨whole, hwhole, hunminimized whole hwhole⟩,
    ⟨n, hn, hminimal n hn⟩⟩

end PatternAutomata
