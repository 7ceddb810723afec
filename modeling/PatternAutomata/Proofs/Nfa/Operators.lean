import Mathlib.Data.List.Basic
import PatternAutomata.Proofs.Nfa.Embedding

/-!
# The operators on automata

Each operator does to the languages of automata what its name says.  This holds for all well
formed operands: also for such as have edges into their start state or out of their accepting
states.

## From edges to words

For every operator its edges are listed first (`Nfa.leads_union`, `Nfa.leads_concat`,
`Nfa.Wraps.leads_iff`).  From the list follows where each operand is embedded, and from that what
a path through the whole reads.  The fork at the start and the accepting state at the end are
dealt with by two facts: a fork is left by epsilon, and nothing leaves the end.

## Repetition and bypass

A loop and a bypass have the same states, and differ only in where a copy may be left to.
`Nfa.Wraps` has the exits as a parameter, and what can be said of both is said of it.  Only a loop
leads back into the copy, so only there the cut is repeated, along the path
(`Nfa.exists_parts_of_path`).  One or more repetitions are a concatenation with a loop, and need
nothing of their own.
-/

namespace PatternAutomata.Nfa

variable {a b nfa : Nfa} {s t : Nat} {w : List Char}

/-! ### The simplest automata -/

theorem leads_oneOf {symbols : List Char} {l : Label} :
    Leads (oneOf symbols).rows s l t ↔ s = 0 ∧ t = 1 ∧ ∃ c ∈ symbols, l = .symbol c := by
  have lookup : ∀ (c : Char) (list : List Char),
      t ∈ ((list.map fun c => (c, StateSet.singleton 1)).lookup c).getD ∅ ↔
        c ∈ list ∧ t = 1 := by
    intro c list
    induction list with
    | nil => simp
    | cons b list ih =>
        rw [List.map_cons, List.lookup_cons]
        by_cases hb : c = b
        · subst hb
          simp [StateSet.mem_singleton]
        · rw [beq_eq_false_iff_ne.2 hb, ih]
          simp [hb]
  show Leads (#[⟨symbols.eraseDups.map fun c => (c, .singleton 1), ∅⟩] ++ #[Row.empty]) s l t ↔ _
  rw [leads_append, leads_singleton]
  constructor
  · rintro (⟨rfl, h⟩ | ⟨r, -, h⟩)
    · cases l with
      | epsilon => exact absurd h Std.ExtTreeSet.not_mem_empty
      | symbol c =>
          obtain ⟨hc, rfl⟩ := (lookup c _).1 h
          exact ⟨rfl, rfl, c, by simpa using hc, rfl⟩
    · exact absurd (leads_singleton.1 h).2 (not_mem_targets_empty l)
  · rintro ⟨rfl, rfl, c, hc, rfl⟩
    exact Or.inl ⟨rfl, (lookup c _).2 ⟨by simpa using hc, rfl⟩⟩

theorem WellFormed.oneOf (symbols : List Char) : (Nfa.oneOf symbols).WellFormed := by
  refine wellFormed_of_leads Nat.two_pos ?_ ?_ ?_
  · intro s hs
    rw [StateSet.mem_singleton.1 hs]
    exact Nat.one_lt_two
  · intro s l t h
    rw [(leads_oneOf.1 h).2.1]
    exact Nat.one_lt_two
  · intro s c t h
    obtain ⟨-, -, b, hb, hc⟩ := leads_oneOf.1 h
    cases hc
    exact Alphabet.mem_ofList.2 hb

theorem accepts_oneOf {symbols : List Char} :
    (oneOf symbols).accepts w = true ↔ ∃ c ∈ symbols, w = [c] := by
  have final : ∀ {v t}, (oneOf symbols).Path 1 v t → v = [] ∧ t = 1 :=
    Path.of_stuck fun l t h => absurd (leads_oneOf.1 h).1 (by decide)
  rw [accepts_iff]
  constructor
  · rintro ⟨t, ht, path⟩
    obtain rfl := StateSet.mem_singleton.1 ht
    cases path with
    | silent e =>
        obtain ⟨-, -, c, -, h⟩ := leads_oneOf.1 (mem_silent.1 e)
        cases h
    | @symbol _ _ _ b v e path =>
        obtain ⟨-, rfl, c, hc, h⟩ := leads_oneOf.1 (mem_on.1 e)
        cases h
        exact ⟨b, hc, by rw [(final path).1]⟩
  · rintro ⟨c, hc, rfl⟩
    refine ⟨1, StateSet.mem_singleton.2 rfl, ?_⟩
    exact .symbol (mem_on.2 (leads_oneOf.2 ⟨rfl, rfl, c, hc, rfl⟩)) (.nil 1)

theorem not_leads_epsilon (s : Nat) (l : Label) (t : Nat) : ¬ Leads epsilon.rows s l t :=
  fun h => not_mem_targets_empty l (leads_singleton.1 h).2

theorem WellFormed.epsilon : Nfa.epsilon.WellFormed := by
  refine wellFormed_of_leads Nat.one_pos ?_ ?_ ?_
  · intro s hs
    rw [StateSet.mem_singleton.1 hs]
    exact Nat.one_pos
  · exact fun s l t h => absurd h (not_leads_epsilon s l t)
  · exact fun s c t h => absurd h (not_leads_epsilon s _ t)

theorem accepts_epsilon : epsilon.accepts w = true ↔ w = [] := by
  rw [accepts_iff]
  constructor
  · rintro ⟨t, -, path⟩
    exact (path.of_stuck (not_leads_epsilon _)).1
  · rintro rfl
    exact ⟨0, StateSet.mem_singleton.2 rfl, .nil 0⟩

/-! ### Union -/

@[simp] theorem numStates_union (a b : Nfa) :
    (a.union b).numStates = a.numStates + b.numStates + 2 := by
  simp only [union, numStates, size_link, Array.size_append, size_shiftedRows,
    List.size_toArray, List.length_cons, List.length_nil]
  omega

/-- The edges of a union: the fork, those of the operands, and those that leave them.  There are
no others, so every path can be sorted into these. -/
theorem leads_union {l : Label} : Leads (a.union b).rows s l t ↔
    (s = 0 ∧ l = .epsilon ∧ (t = 1 + a.start ∨ t = 1 + a.numStates + b.start)) ∨
    (∃ q r, s = 1 + q ∧ t = 1 + r ∧ Leads a.rows q l r) ∨
    (∃ q r, s = 1 + a.numStates + q ∧ t = 1 + a.numStates + r ∧ Leads b.rows q l r) ∨
    (l = .epsilon ∧ s < a.numStates + b.numStates + 2 ∧
      ((∃ q ∈ a.accepting, s = 1 + q) ∨ ∃ q ∈ b.accepting, s = 1 + a.numStates + q) ∧
      t = 1 + a.numStates + b.numStates) := by
  simp only [union, leads_link, leads_append, leads_singleton, leads_shiftedRows,
    mem_targets_fork, not_mem_targets_empty, Array.size_append, size_shiftedRows,
    List.size_toArray, List.length_cons, List.length_nil, List.mem_append, mem_shiftedAccepting]
  constructor
  · rintro ((((⟨rfl, rfl, h⟩ | ⟨q, rfl, r, rfl, h⟩) | ⟨q, rfl, r, rfl, h⟩) | ⟨q, h⟩) | h)
    · exact Or.inl ⟨rfl, rfl, by simpa using h⟩
    · exact Or.inr (Or.inl ⟨q, r, by omega, rfl, h⟩)
    · exact Or.inr (Or.inr (Or.inl ⟨q, r, by omega, rfl, h⟩))
    · exact absurd h.2.2 id
    · obtain ⟨rfl, h, hs, rfl⟩ := h
      exact Or.inr (Or.inr (Or.inr ⟨rfl, by omega, h, rfl⟩))
  · rintro (⟨rfl, rfl, h⟩ | ⟨q, r, rfl, rfl, h⟩ | ⟨q, r, rfl, rfl, h⟩ | ⟨rfl, hs, h, rfl⟩)
    · exact Or.inl (Or.inl (Or.inl (Or.inl ⟨rfl, rfl, by simpa using h⟩)))
    · exact Or.inl (Or.inl (Or.inl (Or.inr ⟨q, by omega, r, rfl, h⟩)))
    · exact Or.inl (Or.inl (Or.inr ⟨q, by omega, r, rfl, h⟩))
    · exact Or.inr ⟨rfl, h, by omega, rfl⟩

theorem WellFormed.union (ha : a.WellFormed) (hb : b.WellFormed) : (a.union b).WellFormed := by
  refine wellFormed_of_leads ?_ ?_ ?_ ?_
  · rw [numStates_union]
    exact Nat.succ_pos _
  · intro s hs
    rw [StateSet.mem_singleton.1 hs, numStates_union]
    omega
  · intro s l t h
    rw [numStates_union]
    rcases leads_union.1 h with ⟨-, -, ht⟩ | ⟨q, r, -, rfl, e⟩ | ⟨q, r, -, rfl, e⟩ | ⟨-, -, -, rfl⟩
    · have := ha.start_lt
      have := hb.start_lt
      omega
    · have := ha.lt_of_leads e
      omega
    · have := hb.lt_of_leads e
      omega
    · omega
  · intro s c t h
    refine Std.ExtTreeSet.mem_union_iff.2 ?_
    rcases leads_union.1 h with ⟨-, hl, -⟩ | ⟨q, r, -, -, e⟩ | ⟨q, r, -, -, e⟩ | ⟨hl, -⟩
    · cases hl
    · exact Or.inl (ha.mem_alphabet_of_leads e)
    · exact Or.inr (hb.mem_alphabet_of_leads e)
    · cases hl

theorem union_embeds_left (a b : Nfa) :
    Embeds a (a.union b) 1 [1 + a.numStates + b.numStates] := by
  intro s hs l t
  rw [leads_union]
  constructor
  · rintro (⟨h, -⟩ | ⟨q, r, h, rfl, e⟩ | ⟨q, r, h, -⟩ | ⟨rfl, -, h, rfl⟩)
    · omega
    · obtain rfl : s = q := by omega
      exact Or.inl ⟨r, rfl, e⟩
    · omega
    · rcases h with ⟨q, hq, h⟩ | ⟨q, hq, h⟩
      · obtain rfl : s = q := by omega
        exact Or.inr ⟨rfl, hq, List.mem_singleton_self _⟩
      · omega
  · rintro (⟨r, rfl, e⟩ | ⟨rfl, hacc, ht⟩)
    · exact Or.inr (Or.inl ⟨s, r, rfl, rfl, e⟩)
    · exact Or.inr (Or.inr (Or.inr
        ⟨rfl, by omega, Or.inl ⟨s, hacc, rfl⟩, List.mem_singleton.1 ht⟩))

theorem union_embeds_right (ha : a.WellFormed) (b : Nfa) :
    Embeds b (a.union b) (1 + a.numStates) [1 + a.numStates + b.numStates] := by
  intro s hs l t
  rw [leads_union]
  constructor
  · rintro (⟨h, -⟩ | ⟨q, r, h, rfl, e⟩ | ⟨q, r, h, rfl, e⟩ | ⟨rfl, -, h, rfl⟩)
    · omega
    · have := e.lt
      simp only [numStates] at h
      omega
    · obtain rfl : s = q := by omega
      exact Or.inl ⟨r, rfl, e⟩
    · rcases h with ⟨q, hq, h⟩ | ⟨q, hq, h⟩
      · have := ha.accepting_lt q hq
        omega
      · obtain rfl : s = q := by omega
        exact Or.inr ⟨rfl, hq, List.mem_singleton_self _⟩
  · rintro (⟨r, rfl, e⟩ | ⟨rfl, hacc, ht⟩)
    · exact Or.inr (Or.inr (Or.inl ⟨s, r, rfl, rfl, e⟩))
    · exact Or.inr (Or.inr (Or.inr
        ⟨rfl, by omega, Or.inr ⟨s, hacc, rfl⟩, List.mem_singleton.1 ht⟩))

theorem union_fork {l : Label} (h : Leads (a.union b).rows 0 l t) :
    l = .epsilon ∧ t ∈ [1 + a.start, 1 + a.numStates + b.start] := by
  rcases leads_union.1 h with ⟨-, hl, ht⟩ | ⟨q, r, h, -⟩ | ⟨q, r, h, -⟩ | ⟨-, -, h, -⟩
  · exact ⟨hl, by simpa using ht⟩
  · omega
  · omega
  · rcases h with ⟨q, -, h⟩ | ⟨q, -, h⟩
    · omega
    · omega

/-- No edge leaves the accepting state, so a path that gets there is over. -/
theorem union_stuck (ha : a.WellFormed) (hb : b.WellFormed) (l : Label) (t : Nat) :
    ¬ Leads (a.union b).rows (1 + a.numStates + b.numStates) l t := by
  intro h
  rcases leads_union.1 h with ⟨h, -⟩ | ⟨q, r, h, -, e⟩ | ⟨q, r, h, -, e⟩ | ⟨-, -, h, -⟩
  · omega
  · have := e.lt
    simp only [numStates] at h
    omega
  · have := e.lt
    simp only [numStates] at h
    omega
  · rcases h with ⟨q, hq, h⟩ | ⟨q, hq, h⟩
    · have := ha.accepting_lt q hq
      omega
    · have := hb.accepting_lt q hq
      omega

/-- **A union accepts the words of either operand.**  The operands may be the same, since they are
copied apart. -/
theorem accepts_union (ha : a.WellFormed) (hb : b.WellFormed) :
    (a.union b).accepts w = true ↔ a.accepts w = true ∨ b.accepts w = true := by
  have left := union_embeds_left a b
  have right := union_embeds_right ha b
  rw [accepts_iff]
  constructor
  · rintro ⟨t, ht, path⟩
    obtain rfl := StateSet.mem_singleton.1 ht
    obtain ⟨x, hx, path⟩ := path.of_fork (fun _ _ => union_fork) (by show _ ≠ 0; omega)
    rcases List.mem_pair.1 hx with rfl | rfl
    · obtain ⟨u, v, rfl, hu, x, hx, rest⟩ := left.accepts_of_path ha path (by omega)
      rw [List.mem_singleton.1 hx] at rest
      rw [(rest.of_stuck (union_stuck ha hb)).1, List.append_nil]
      exact Or.inl hu
    · obtain ⟨u, v, rfl, hu, x, hx, rest⟩ := right.accepts_of_path hb path (by omega)
      rw [List.mem_singleton.1 hx] at rest
      rw [(rest.of_stuck (union_stuck ha hb)).1, List.append_nil]
      exact Or.inr hu
  · intro h
    refine ⟨_, StateSet.mem_singleton.2 rfl, ?_⟩
    rw [← List.append_nil w]
    rcases h with h | h
    · refine .silent (mem_silent.2 (leads_union.2 (Or.inl ⟨rfl, rfl, Or.inl rfl⟩))) ?_
      exact left.path_of_accepts ha h (List.mem_singleton_self _) (.nil _)
    · refine .silent (mem_silent.2 (leads_union.2 (Or.inl ⟨rfl, rfl, Or.inr rfl⟩))) ?_
      exact right.path_of_accepts hb h (List.mem_singleton_self _) (.nil _)

/-! ### Concatenation -/

@[simp] theorem numStates_concat (a b : Nfa) :
    (a.concat b).numStates = a.numStates + b.numStates := by
  simp only [concat, numStates, Array.size_append, size_link, size_shiftedRows]

/-- The edges of a concatenation: those of the operands, and those from one to the other.  The
first operand is not moved. -/
theorem leads_concat {l : Label} : Leads (a.concat b).rows s l t ↔
    Leads a.rows s l t ∨
    (∃ q r, s = a.numStates + q ∧ t = a.numStates + r ∧ Leads b.rows q l r) ∨
    (l = .epsilon ∧ s ∈ a.accepting ∧ s < a.numStates ∧ t = a.numStates + b.start) := by
  simp only [concat, leads_append, leads_link, leads_shiftedRows, size_link,
    Std.ExtTreeSet.mem_toList]
  constructor
  · rintro ((h | h) | ⟨q, rfl, r, rfl, h⟩)
    · exact Or.inl h
    · exact Or.inr (Or.inr h)
    · exact Or.inr (Or.inl ⟨q, r, rfl, rfl, h⟩)
  · rintro (h | ⟨q, r, rfl, rfl, h⟩ | h)
    · exact Or.inl (Or.inl h)
    · exact Or.inr ⟨q, rfl, r, rfl, h⟩
    · exact Or.inl (Or.inr h)

theorem mem_accepting_concat :
    s ∈ (a.concat b).accepting ↔ ∃ r ∈ b.accepting, s = a.numStates + r := by
  rw [concat, StateSet.mem_ofList, mem_shiftedAccepting]

theorem WellFormed.concat (ha : a.WellFormed) (hb : b.WellFormed) :
    (a.concat b).WellFormed := by
  refine wellFormed_of_leads ?_ ?_ ?_ ?_
  · rw [numStates_concat]
    exact Nat.lt_add_right _ ha.start_lt
  · intro s hs
    obtain ⟨r, hr, rfl⟩ := mem_accepting_concat.1 hs
    rw [numStates_concat]
    exact Nat.add_lt_add_left (hb.accepting_lt r hr) _
  · intro s l t h
    rw [numStates_concat]
    rcases leads_concat.1 h with e | ⟨q, r, -, rfl, e⟩ | ⟨-, -, -, rfl⟩
    · exact Nat.lt_add_right _ (ha.lt_of_leads e)
    · exact Nat.add_lt_add_left (hb.lt_of_leads e) _
    · exact Nat.add_lt_add_left hb.start_lt _
  · intro s c t h
    refine Std.ExtTreeSet.mem_union_iff.2 ?_
    rcases leads_concat.1 h with e | ⟨q, r, -, -, e⟩ | ⟨hl, -⟩
    · exact Or.inl (ha.mem_alphabet_of_leads e)
    · exact Or.inr (hb.mem_alphabet_of_leads e)
    · cases hl

theorem concat_embeds_left (a b : Nfa) : Embeds a (a.concat b) 0 [a.numStates + b.start] := by
  intro s hs l t
  rw [leads_concat, Nat.zero_add]
  constructor
  · rintro (e | ⟨q, r, h, -⟩ | ⟨rfl, hacc, -, rfl⟩)
    · exact Or.inl ⟨t, (Nat.zero_add t).symm, e⟩
    · omega
    · exact Or.inr ⟨rfl, hacc, List.mem_singleton_self _⟩
  · rintro (⟨r, rfl, e⟩ | ⟨rfl, hacc, ht⟩)
    · exact Or.inl (by rwa [Nat.zero_add])
    · exact Or.inr (Or.inr ⟨rfl, hacc, hs, List.mem_singleton.1 ht⟩)

theorem concat_embeds_right (a b : Nfa) : Embeds b (a.concat b) a.numStates [] := by
  intro s hs l t
  rw [leads_concat]
  constructor
  · rintro (e | ⟨q, r, h, rfl, e⟩ | ⟨-, -, h, -⟩)
    · have : a.numStates + s < a.numStates := e.lt
      omega
    · obtain rfl : s = q := by omega
      exact Or.inl ⟨r, rfl, e⟩
    · omega
  · rintro (⟨r, rfl, e⟩ | ⟨-, -, ht⟩)
    · exact Or.inr (Or.inl ⟨s, r, rfl, rfl, e⟩)
    · cases ht

/-- **A concatenation accepts a word of the first operand followed by one of the second.**  No
edge leads back, so the word is cut at one place. -/
theorem accepts_concat (ha : a.WellFormed) (hb : b.WellFormed) :
    (a.concat b).accepts w = true ↔
      ∃ u v, w = u ++ v ∧ a.accepts u = true ∧ b.accepts v = true := by
  have left := concat_embeds_left a b
  have right := concat_embeds_right a b
  have hstart : (a.concat b).start = 0 + a.start := (Nat.zero_add _).symm
  rw [accepts_iff, hstart]
  constructor
  · rintro ⟨t, ht, path⟩
    obtain ⟨f, hf, rfl⟩ := mem_accepting_concat.1 ht
    obtain ⟨u, v, rfl, hu, x, hx, rest⟩ := left.accepts_of_path ha path (by omega)
    rw [List.mem_singleton.1 hx] at rest
    refine ⟨u, v, rfl, hu, ?_⟩
    rcases right.path_cases hb hb.start_lt rest with ⟨r, hr, inner⟩ | ⟨_, _, _, _, _, _, x, hx, _⟩
    · obtain rfl : f = r := by omega
      exact accepts_iff.2 ⟨f, hf, inner⟩
    · cases hx
  · rintro ⟨u, v, rfl, hu, hv⟩
    obtain ⟨f, hf, inner⟩ := accepts_iff.1 hv
    refine ⟨a.numStates + f, mem_accepting_concat.2 ⟨f, hf, rfl⟩, ?_⟩
    exact left.path_of_accepts ha hu (List.mem_singleton_self _) (right.path hb inner hb.start_lt)

/-! ### Repetition and bypass -/

/-- `Wraps a nfa exits`: a fork that leads into a copy of `a` and past it, the copy, which is left
to `exits`, and an accepting state behind it. -/
structure Wraps (a nfa : Nfa) (exits : List Nat) : Prop where
  start_eq : nfa.start = 0
  accepting_eq : nfa.accepting = .singleton (1 + a.numStates)
  numStates_eq : nfa.numStates = a.numStates + 2
  alphabet_eq : nfa.alphabet = a.alphabet
  exits_cases : ∀ x ∈ exits, x = 1 + a.start ∨ x = 1 + a.numStates
  leads_iff : ∀ s l t, Leads nfa.rows s l t ↔
    (s = 0 ∧ l = .epsilon ∧ (t = 1 + a.start ∨ t = 1 + a.numStates)) ∨
    (∃ q r, s = 1 + q ∧ t = 1 + r ∧ Leads a.rows q l r) ∨
    (l = .epsilon ∧ ∃ q ∈ a.accepting, s = 1 + q ∧ t ∈ exits)

namespace Wraps

variable {exits : List Nat}

theorem wellFormed (h : Wraps a nfa exits) (wf : a.WellFormed) : nfa.WellFormed := by
  have hstart := wf.start_lt
  refine wellFormed_of_leads ?_ ?_ ?_ ?_
  · rw [h.start_eq, h.numStates_eq]
    exact Nat.succ_pos _
  · intro s hs
    rw [h.accepting_eq] at hs
    rw [StateSet.mem_singleton.1 hs, h.numStates_eq]
    omega
  · intro s l t edge
    rw [h.numStates_eq]
    rcases (h.leads_iff s l t).1 edge with ⟨-, -, ht⟩ | ⟨q, r, -, rfl, e⟩ | ⟨-, q, -, -, ht⟩
    · omega
    · have := wf.lt_of_leads e
      omega
    · have := h.exits_cases t ht
      omega
  · intro s c t edge
    rw [h.alphabet_eq]
    rcases (h.leads_iff s _ t).1 edge with ⟨-, hl, -⟩ | ⟨q, r, -, -, e⟩ | ⟨hl, -⟩
    · cases hl
    · exact wf.mem_alphabet_of_leads e
    · cases hl

theorem embeds (h : Wraps a nfa exits) : Embeds a nfa 1 exits := by
  intro s hs l t
  rw [h.leads_iff]
  constructor
  · rintro (⟨h0, -⟩ | ⟨q, r, hq, rfl, e⟩ | ⟨rfl, q, hacc, hq, ht⟩)
    · omega
    · obtain rfl : s = q := by omega
      exact Or.inl ⟨r, rfl, e⟩
    · obtain rfl : s = q := by omega
      exact Or.inr ⟨rfl, hacc, ht⟩
  · rintro (⟨r, rfl, e⟩ | ⟨rfl, hacc, ht⟩)
    · exact Or.inr (Or.inl ⟨s, r, rfl, rfl, e⟩)
    · exact Or.inr (Or.inr ⟨rfl, s, hacc, rfl, ht⟩)

/-- No edge leaves the accepting state, whatever the exits of the copy are. -/
theorem stuck (h : Wraps a nfa exits) (wf : a.WellFormed) (l : Label) (t : Nat) :
    ¬ Leads nfa.rows (1 + a.numStates) l t := by
  intro edge
  rcases (h.leads_iff _ l t).1 edge with ⟨h0, -⟩ | ⟨q, r, hq, -, e⟩ | ⟨-, q, hacc, hq, -⟩
  · omega
  · have : q < a.numStates := e.lt
    omega
  · have := wf.accepting_lt q hacc
    omega

/-- Past the fork, a word is either over or read from the start of the copy. -/
theorem accepts_iff (h : Wraps a nfa exits) (wf : a.WellFormed) :
    nfa.accepts w = true ↔ w = [] ∨ nfa.Path (1 + a.start) w (1 + a.numStates) := by
  have fork : ∀ l t, Leads nfa.rows 0 l t →
      l = .epsilon ∧ t ∈ [1 + a.start, 1 + a.numStates] := by
    intro l t edge
    rcases (h.leads_iff 0 l t).1 edge with ⟨-, hl, ht⟩ | ⟨q, r, hq, -⟩ | ⟨-, q, -, hq, -⟩
    · exact ⟨hl, by simpa using ht⟩
    · omega
    · omega
  rw [Nfa.accepts_iff, h.start_eq, h.accepting_eq]
  constructor
  · rintro ⟨t, ht, path⟩
    obtain rfl := StateSet.mem_singleton.1 ht
    obtain ⟨x, hx, path⟩ := path.of_fork fork (by omega)
    rcases List.mem_pair.1 hx with rfl | rfl
    · exact Or.inr path
    · exact Or.inl (path.of_stuck (h.stuck wf)).1
  · intro hw
    refine ⟨_, StateSet.mem_singleton.2 rfl, ?_⟩
    rcases hw with rfl | path
    · exact .silent (mem_silent.2 ((h.leads_iff ..).2 (Or.inl ⟨rfl, rfl, Or.inr rfl⟩))) (.nil _)
    · exact .silent (mem_silent.2 ((h.leads_iff ..).2 (Or.inl ⟨rfl, rfl, Or.inl rfl⟩))) path

end Wraps

theorem wraps_optional (wf : a.WellFormed) : Wraps a a.optional [1 + a.numStates] where
  start_eq := rfl
  accepting_eq := rfl
  numStates_eq := by
    simp only [optional, numStates, size_link, Array.size_append, size_shiftedRows,
      List.size_toArray, List.length_cons, List.length_nil]
    omega
  alphabet_eq := rfl
  exits_cases x hx := Or.inr (List.mem_singleton.1 hx)
  leads_iff s l t := by
    simp only [optional, leads_link, leads_append, leads_singleton, leads_shiftedRows,
      mem_targets_fork, not_mem_targets_empty, Array.size_append, size_shiftedRows,
      List.size_toArray, List.length_cons, List.length_nil, mem_shiftedAccepting]
    constructor
    · rintro (((⟨rfl, rfl, ht⟩ | ⟨q, rfl, r, rfl, e⟩) | ⟨q, -, -, hf⟩) |
        ⟨rfl, ⟨q, hq, rfl⟩, -, rfl⟩)
      · exact Or.inl ⟨rfl, rfl, by simpa using ht⟩
      · exact Or.inr (Or.inl ⟨q, r, by omega, rfl, e⟩)
      · exact absurd hf id
      · exact Or.inr (Or.inr ⟨rfl, q, hq, rfl, List.mem_singleton_self _⟩)
    · rintro (⟨rfl, rfl, ht⟩ | ⟨q, r, rfl, rfl, e⟩ | ⟨rfl, q, hq, rfl, ht⟩)
      · exact Or.inl (Or.inl (Or.inl ⟨rfl, rfl, by simpa using ht⟩))
      · exact Or.inl (Or.inl (Or.inr ⟨q, by omega, r, rfl, e⟩))
      · have := wf.accepting_lt q hq
        exact Or.inr ⟨rfl, ⟨q, hq, rfl⟩, by omega, List.mem_singleton.1 ht⟩

theorem WellFormed.optional (wf : a.WellFormed) : a.optional.WellFormed :=
  (wraps_optional wf).wellFormed wf

/-- **A bypass accepts a word of the operand or the word without symbols.** -/
theorem accepts_optional (wf : a.WellFormed) :
    a.optional.accepts w = true ↔ w = [] ∨ a.accepts w = true := by
  have wraps := wraps_optional wf
  rw [wraps.accepts_iff wf]
  refine or_congr_right ⟨fun path => ?_, fun h => ?_⟩
  · obtain ⟨u, v, rfl, hu, x, hx, rest⟩ := wraps.embeds.accepts_of_path wf path (Nat.le_refl _)
    rw [List.mem_singleton.1 hx] at rest
    rwa [(rest.of_stuck (wraps.stuck wf)).1, List.append_nil]
  · rw [← List.append_nil w]
    exact wraps.embeds.path_of_accepts wf h (List.mem_singleton_self _) (.nil _)

theorem wraps_star (wf : a.WellFormed) : Wraps a a.star [1 + a.start, 1 + a.numStates] where
  start_eq := rfl
  accepting_eq := rfl
  numStates_eq := by
    simp only [star, numStates, size_link, Array.size_append, size_shiftedRows,
      List.size_toArray, List.length_cons, List.length_nil]
    omega
  alphabet_eq := rfl
  exits_cases x hx := List.mem_pair.1 hx
  leads_iff s l t := by
    simp only [star, leads_link, leads_append, leads_singleton, leads_shiftedRows,
      mem_targets_fork, not_mem_targets_empty, Array.size_append, size_shiftedRows, size_link,
      List.size_toArray, List.length_cons, List.length_nil, mem_shiftedAccepting]
    constructor
    · rintro ((((⟨rfl, rfl, ht⟩ | ⟨q, rfl, r, rfl, e⟩) | ⟨q, -, -, hf⟩) |
        ⟨rfl, ⟨q, hq, rfl⟩, -, rfl⟩) | ⟨rfl, ⟨q, hq, rfl⟩, -, rfl⟩)
      · exact Or.inl ⟨rfl, rfl, by simpa using ht⟩
      · exact Or.inr (Or.inl ⟨q, r, by omega, rfl, e⟩)
      · exact absurd hf id
      · exact Or.inr (Or.inr ⟨rfl, q, hq, rfl, List.mem_pair.2 (Or.inl rfl)⟩)
      · exact Or.inr (Or.inr ⟨rfl, q, hq, rfl, List.mem_pair.2 (Or.inr rfl)⟩)
    · rintro (⟨rfl, rfl, ht⟩ | ⟨q, r, rfl, rfl, e⟩ | ⟨rfl, q, hq, rfl, ht⟩)
      · exact Or.inl (Or.inl (Or.inl (Or.inl ⟨rfl, rfl, by simpa using ht⟩)))
      · exact Or.inl (Or.inl (Or.inl (Or.inr ⟨q, by omega, r, rfl, e⟩)))
      · have := wf.accepting_lt q hq
        rcases List.mem_pair.1 ht with rfl | rfl
        · exact Or.inl (Or.inr ⟨rfl, ⟨q, hq, rfl⟩, by omega, rfl⟩)
        · exact Or.inr ⟨rfl, ⟨q, hq, rfl⟩, by omega, rfl⟩

theorem WellFormed.star (wf : a.WellFormed) : a.star.WellFormed :=
  (wraps_star wf).wellFormed wf

/-- A path through a loop reads words of the operand, one after another.  It is stated for a path
that begins anywhere in the copy, as the induction needs. -/
theorem exists_parts_of_path (wf : a.WellFormed) {s : Nat} (hs : s < a.numStates)
    (h : a.star.Path (1 + s) w (1 + a.numStates)) :
    ∃ u v, w = u ++ v ∧ (∃ f ∈ a.accepting, a.Path s u f) ∧
      ∃ parts : List (List Char), v = parts.flatten ∧ ∀ part ∈ parts, a.accepts part = true := by
  have wraps := wraps_star wf
  -- the induction is along the path, from any state of the copy
  generalize hp : 1 + s = p at h
  generalize ht : 1 + a.numStates = t at h
  induction h generalizing s with
  | nil p => omega
  | @silent p q t w edge path ih =>
      subst hp ht
      rcases (wraps.embeds s hs _ _).1 (mem_silent.1 edge) with ⟨r, rfl, hr⟩ | ⟨-, hacc, hq⟩
      · obtain ⟨u, v, rfl, ⟨f, hf, inner⟩, rest⟩ := ih (wf.lt_of_leads hr) rfl rfl
        exact ⟨u, v, rfl, ⟨f, hf, .silent (mem_silent.2 hr) inner⟩, rest⟩
      · refine ⟨[], w, rfl, ⟨s, hacc, .nil s⟩, ?_⟩
        rcases List.mem_pair.1 hq with rfl | rfl
        · -- back to the start of the copy: what is read from there on is cut once more
          obtain ⟨u, v, rfl, inner, parts, rfl, hparts⟩ := ih wf.start_lt rfl rfl
          exact ⟨u :: parts, rfl, List.forall_mem_cons.2 ⟨accepts_iff.2 inner, hparts⟩⟩
        · exact ⟨[], (path.of_stuck (wraps.stuck wf)).1, fun part hpart => by cases hpart⟩
  | @symbol p q t c w edge path ih =>
      subst hp ht
      rcases (wraps.embeds s hs _ _).1 (mem_on.1 edge) with ⟨r, rfl, hr⟩ | ⟨h, -⟩
      · obtain ⟨u, v, rfl, ⟨f, hf, inner⟩, rest⟩ := ih (wf.lt_of_leads hr) rfl rfl
        exact ⟨c :: u, v, rfl, ⟨f, hf, .symbol (mem_on.2 hr) inner⟩, rest⟩
      · cases h

/-- **A loop accepts any number of words of the operand, one after another.**  Words without
symbols may be among them and make no difference. -/
theorem accepts_star (wf : a.WellFormed) :
    a.star.accepts w = true ↔
      ∃ parts : List (List Char), w = parts.flatten ∧ ∀ part ∈ parts, a.accepts part = true := by
  have wraps := wraps_star wf
  rw [wraps.accepts_iff wf]
  constructor
  · rintro (rfl | path)
    · exact ⟨[], rfl, fun part hpart => by cases hpart⟩
    · obtain ⟨u, v, rfl, inner, parts, rfl, hparts⟩ := exists_parts_of_path wf wf.start_lt path
      exact ⟨u :: parts, rfl, List.forall_mem_cons.2 ⟨accepts_iff.2 inner, hparts⟩⟩
  · rintro ⟨parts, rfl, hparts⟩
    induction parts with
    | nil => exact Or.inl rfl
    | cons u parts ih =>
        have hu := hparts u List.mem_cons_self
        refine Or.inr ?_
        rcases ih fun part hpart => hparts part (List.mem_cons_of_mem _ hpart) with h | path
        · rw [List.flatten_cons, h]
          exact wraps.embeds.path_of_accepts wf hu (List.mem_pair.2 (Or.inr rfl)) (.nil _)
        · rw [List.flatten_cons]
          exact wraps.embeds.path_of_accepts wf hu (List.mem_pair.2 (Or.inl rfl)) path

theorem WellFormed.plus (wf : a.WellFormed) : a.plus.WellFormed :=
  wf.concat wf.star

/-- **One or more repetitions accept a word of the operand followed by any number of them.** -/
theorem accepts_plus (wf : a.WellFormed) :
    a.plus.accepts w = true ↔ ∃ u v, w = u ++ v ∧ a.accepts u = true ∧
      ∃ parts : List (List Char), v = parts.flatten ∧ ∀ part ∈ parts, a.accepts part = true := by
  rw [plus, accepts_concat wf wf.star]
  simp only [accepts_star wf]

end PatternAutomata.Nfa
