import Mathlib.Data.Option.Basic
import PatternAutomata.Dfa.Basic
import PatternAutomata.Proofs.Error

/-!
# Building a deterministic automaton

What the steps of building do to the edges of an automaton, and what holds of an automaton after
any number of steps.

## Seen through the edges

The array of rows is opened here and nowhere else.  For each step there is a lemma on what it does
to `Dfa.transition` and one on what it does to `Dfa.isAccepting`, and later proofs are about these
two functions.  `Dfa.addTransition_cases` says all that adding an edge can do, with its
conditions, so that no proof has to go through the checks again.

## Built, well formed, extended

`Dfa.Built` are the automata that the steps lead to.  It is an inductive type, so what every step
keeps holds of all of them.  `Dfa.WellFormed` is what is kept about the edges: they join existing
states and carry symbols of the alphabet.  `Dfa.Built` says more than `Dfa.WellFormed`, as the two
files of the edges are in step as well; results that read edges backwards ask for it.

Adding many edges could fail at each of them.  `Dfa.addTransitions_ok` says when it does not: the
ends exist, the symbols are known, and no two of the edges, old ones among them, contradict one
another.  `Dfa.Extended` is what has come of it.  `Dfa.ofRows_ok` is the case of rows, which is
how the automata of surveys and of shapes are made, and `Dfa.Laid` is what they are like.
-/

namespace PatternAutomata.Dfa

variable {dfa : Dfa}

/-! ### The steps, seen through the edges -/

theorem transition_eq_none_of_le {s : Nat} (h : dfa.numStates ≤ s) (c : Char) :
    dfa.transition s c = none := by
  unfold transition
  rw [Array.getElem?_eq_none h]

theorem lt_of_transition_eq_some {s t : Nat} {c : Char}
    (h : dfa.transition s c = some t) : s < dfa.numStates := by
  by_contra hs
  rw [transition_eq_none_of_le (Nat.le_of_not_lt hs)] at h
  cases h

theorem isAccepting_eq_false_of_le {s : Nat} (h : dfa.numStates ≤ s) :
    dfa.isAccepting s = false := by
  unfold isAccepting
  rw [Array.getElem?_eq_none h]

theorem mem_acceptStates {s : Nat} : s ∈ dfa.acceptStates ↔ dfa.isAccepting s = true := by
  rw [acceptStates, List.mem_filter, List.mem_range]
  constructor
  · rintro ⟨_, hacc⟩
    exact hacc
  · intro hacc
    refine ⟨?_, hacc⟩
    apply Nat.lt_of_not_le
    intro hle
    rw [isAccepting_eq_false_of_le hle] at hacc
    cases hacc

@[simp] theorem transition_withAlphabet (alphabet : Alphabet) (s : Nat) (c : Char) :
    (withAlphabet alphabet).transition s c = none := by
  simp [transition, withAlphabet]

@[simp] theorem transition_addState (dfa : Dfa) (b : Bool) (s : Nat) (c : Char) :
    (dfa.addState b).transition s c = dfa.transition s c := by
  unfold transition addState
  rw [Array.getElem?_push]
  by_cases h : s = dfa.states.size
  · subst h
    simp
  · simp [h]

theorem isAccepting_addState (dfa : Dfa) (b : Bool) (s : Nat) :
    (dfa.addState b).isAccepting s = if s = dfa.numStates then b else dfa.isAccepting s := by
  unfold isAccepting addState numStates
  rw [Array.getElem?_push]
  by_cases h : s = dfa.states.size <;> simp [h]

theorem transition_file {source target : Nat} (h : source < dfa.numStates) (c : Char)
    (s : Nat) (d : Char) :
    (dfa.file source c target).transition s d =
      if s = source ∧ d = c then some target else dfa.transition s d := by
  unfold transition file
  rw [Array.getElem?_modify, Array.getElem?_modify]
  by_cases hs : s = source
  · subst hs
    have hlt : s < dfa.states.size := h
    by_cases hd : d = c
    · by_cases ht : target = s <;> simp [hlt, hd, ht]
    · have hcd : ¬ c = d := fun e => hd e.symm
      by_cases ht : target = s <;> simp [hlt, hd, hcd, ht, Std.ExtTreeMap.getElem?_insert]
  · have hne : ¬ source = s := fun e => hs e.symm
    cases hrow : dfa.states[s]? with
    | none => simp [hs, hne]
    | some row => by_cases ht : target = s <;> simp [hs, hne, ht]

@[simp] theorem isAccepting_file (dfa : Dfa) (source : Nat) (c : Char) (target s : Nat) :
    (dfa.file source c target).isAccepting s = dfa.isAccepting s := by
  unfold isAccepting file
  rw [Array.getElem?_modify, Array.getElem?_modify]
  cases hrow : dfa.states[s]? with
  | none => simp
  | some row => by_cases ht : target = s <;> by_cases hs : source = s <;> simp [ht, hs]

/-- An edge between existing states that is not there is put on file. -/
theorem addTransition_eq_file {source target : Nat} {c : Char} (hs : source < dfa.numStates)
    (ht : target < dfa.numStates) (new : dfa.transition source c = none) :
    dfa.addTransition source c target = .ok (dfa.file source c target) := by
  unfold addTransition
  rw [if_neg (by omega), new]

/-- **What adding an edge can do**: the ends exist, and either the edge was there already or it is
filed as the first edge of its source under its symbol.  Both conditions are part of the
statement, since later proofs need them as much as the result. -/
theorem addTransition_cases {source target : Nat} {c : Char} {dfa' : Dfa}
    (h : dfa.addTransition source c target = .ok dfa') :
    source < dfa.numStates ∧ target < dfa.numStates ∧
      ((dfa.transition source c = some target ∧ dfa' = dfa) ∨
        (dfa.transition source c = none ∧ dfa' = dfa.file source c target)) := by
  unfold addTransition at h
  by_cases hends : dfa.numStates ≤ source ∨ dfa.numStates ≤ target
  · rw [if_pos hends] at h
    cases h
  · rw [if_neg hends] at h
    refine ⟨by omega, by omega, ?_⟩
    cases hpresent : dfa.transition source c with
    | none =>
        rw [hpresent] at h
        cases h
        exact Or.inr ⟨rfl, rfl⟩
    | some present =>
        simp only [hpresent] at h
        by_cases heq : present = target
        · rw [if_pos heq] at h
          cases h
          exact Or.inl ⟨by rw [heq], rfl⟩
        · rw [if_neg heq] at h
          cases h

/-! ### Automata that were built -/

/-- **The automata that can be built**: from an automaton without states, by adding states and
edges, naming a start state that exists, and naming what the states stand for.  A refused edge
leaves the automaton as it is, so refusals need no rule. -/
inductive Built : Dfa → Prop where
  | withAlphabet (alphabet : Alphabet) : Built (withAlphabet alphabet)
  | addState {dfa : Dfa} (accepting : Bool) : Built dfa → Built (dfa.addState accepting)
  | addTransition {dfa dfa' : Dfa} {source target : Nat} {c : Char} :
      Built dfa → dfa.addTransition source c target = .ok dfa' → Built dfa'
  | setStart {dfa : Dfa} {state : Nat} :
      Built dfa → state < dfa.numStates → Built (dfa.setStart state)
  | setMapping {dfa : Dfa} (mapping : Std.ExtTreeMap Nat (List Nat)) :
      Built dfa → Built (dfa.setMapping mapping)

theorem Built.file (built : Built dfa) {source target : Nat} {c : Char}
    (hs : source < dfa.numStates) (ht : target < dfa.numStates)
    (new : dfa.transition source c = none) : Built (dfa.file source c target) :=
  built.addTransition (addTransition_eq_file hs ht new)

/-- Edges join existing states and carry symbols of the alphabet, and the start state exists as
soon as any state does.  Without states the start is zero, which is where the first state will
be. -/
structure WellFormed (dfa : Dfa) : Prop where
  start_lt : 0 < dfa.numStates → dfa.start < dfa.numStates
  target_lt : ∀ {s c t}, dfa.transition s c = some t → t < dfa.numStates
  mem_alphabet : ∀ {s c t}, dfa.transition s c = some t → c ∈ dfa.alphabet
  start_eq_zero : dfa.numStates = 0 → dfa.start = 0

theorem WellFormed.file (wf : dfa.WellFormed) {source target : Nat}
    (hs : source < dfa.numStates) (ht : target < dfa.numStates) (c : Char) :
    (dfa.file source c target).WellFormed where
  start_lt h := by
    rw [numStates_file] at h ⊢
    exact wf.start_lt h
  target_lt {s d t} h := by
    rw [numStates_file]
    rw [transition_file hs] at h
    by_cases hsd : s = source ∧ d = c
    · rw [if_pos hsd, Option.some.injEq] at h
      exact h ▸ ht
    · rw [if_neg hsd] at h
      exact wf.target_lt h
  mem_alphabet {s d t} h := by
    show d ∈ dfa.alphabet.insert c
    rw [Std.ExtTreeSet.mem_insert, Std.LawfulEqCmp.compare_eq_iff_eq]
    rw [transition_file hs] at h
    by_cases hsd : s = source ∧ d = c
    · exact Or.inl hsd.2.symm
    · rw [if_neg hsd] at h
      exact Or.inr (wf.mem_alphabet h)
  start_eq_zero h := by
    rw [numStates_file] at h
    omega

/-- **Every automaton that was built is well formed.** -/
theorem Built.wellFormed (h : Built dfa) : dfa.WellFormed := by
  induction h with
  | withAlphabet alphabet =>
      exact ⟨fun h => absurd h (by simp), fun h => by simp at h, fun h => by simp at h,
        fun _ => rfl⟩
  | @addState dfa accepting _ ih =>
      refine ⟨fun _ => ?_, fun {s c t} ht => ?_, fun {s c t} ht => ?_, fun h => by simp at h⟩
      · rw [numStates_addState]
        show dfa.start < dfa.numStates + 1
        rcases Nat.eq_zero_or_pos dfa.numStates with h0 | hpos
        · rw [ih.start_eq_zero h0]
          omega
        · have := ih.start_lt hpos
          omega
      · rw [numStates_addState]
        rw [transition_addState] at ht
        have := ih.target_lt ht
        omega
      · rw [transition_addState] at ht
        exact ih.mem_alphabet ht
  | addTransition _ hadd ih =>
      obtain ⟨hs, ht, ⟨-, rfl⟩ | ⟨-, rfl⟩⟩ := addTransition_cases hadd
      · exact ih
      · exact ih.file hs ht _
  | @setStart dfa state _ hlt ih =>
      refine ⟨fun _ => hlt, ih.target_lt, ih.mem_alphabet, fun h => ?_⟩
      have h0 : dfa.numStates = 0 := h
      omega
  | setMapping _ _ ih =>
      exact ⟨ih.start_lt, ih.target_lt, ih.mem_alphabet, ih.start_eq_zero⟩

/-! ### Several edges -/

/-- `dfa'` is `dfa` with some edges more, under symbols that it knew before.  The alphabet stays
as it is because of that, while edges under other symbols would make it grow. -/
structure Extended (dfa dfa' : Dfa) (edges : List (Nat × Char × Nat)) : Prop where
  built : dfa.Built → dfa'.Built
  numStates_eq : dfa'.numStates = dfa.numStates
  start_eq : dfa'.start = dfa.start
  alphabet_eq : dfa'.alphabet = dfa.alphabet
  mapping_eq : dfa'.mapping = dfa.mapping
  isAccepting_eq : ∀ s, dfa'.isAccepting s = dfa.isAccepting s
  transition_iff : ∀ s c t, dfa'.transition s c = some t ↔
    dfa.transition s c = some t ∨ (s, c, t) ∈ edges

theorem insert_eq_self {a : Alphabet} {c : Char} (h : c ∈ a) : a.insert c = a := by
  ext d
  rw [Std.ExtTreeSet.mem_insert, Std.LawfulEqCmp.compare_eq_iff_eq]
  exact ⟨fun hd => hd.elim (fun e => e ▸ h) id, Or.inr⟩

/-- An edge between existing states that contradicts none can be added.  If the edge is there
already it is added in name only. -/
theorem addTransition_ok {s t : Nat} {c : Char} (hs : s < dfa.numStates)
    (ht : t < dfa.numStates) (hc : c ∈ dfa.alphabet)
    (single : ∀ t', dfa.transition s c = some t' → t' = t) :
    ∃ dfa', dfa.addTransition s c t = .ok dfa' ∧ Extended dfa dfa' [(s, c, t)] := by
  -- an edge that is there already is not added again
  cases hpresent : dfa.transition s c with
  | none =>
      have step := addTransition_eq_file hs ht hpresent
      refine ⟨_, step, fun hb => hb.addTransition step, numStates_file .., rfl,
        insert_eq_self hc, rfl, fun _ => isAccepting_file .., fun s' c' t' => ?_⟩
      rw [transition_file hs, List.mem_singleton, Prod.mk.injEq, Prod.mk.injEq]
      by_cases h : s' = s ∧ c' = c
      · rw [if_pos h, h.1, h.2, hpresent]
        simp [eq_comm]
      · rw [if_neg h]
        exact ⟨Or.inl, fun h' => h'.resolve_right fun e => h ⟨e.1, e.2.1⟩⟩
  | some present =>
      obtain rfl : present = t := single present hpresent
      have step : dfa.addTransition s c present = .ok dfa := by
        unfold addTransition
        rw [if_neg (by omega), hpresent]
        exact if_pos rfl
      refine ⟨dfa, step, id, rfl, rfl, rfl, rfl, fun _ => rfl, fun s' c' t' => ?_⟩
      rw [List.mem_singleton, Prod.mk.injEq, Prod.mk.injEq]
      refine ⟨Or.inl, fun h' => h'.elim id ?_⟩
      rintro ⟨rfl, rfl, rfl⟩
      exact hpresent

theorem Extended.trans {dfa₁ dfa₂ : Dfa} {edges rest : List (Nat × Char × Nat)}
    (h : Extended dfa dfa₁ edges) (h' : Extended dfa₁ dfa₂ rest) :
    Extended dfa dfa₂ (edges ++ rest) where
  built hb := h'.built (h.built hb)
  numStates_eq := h'.numStates_eq.trans h.numStates_eq
  start_eq := h'.start_eq.trans h.start_eq
  alphabet_eq := h'.alphabet_eq.trans h.alphabet_eq
  mapping_eq := h'.mapping_eq.trans h.mapping_eq
  isAccepting_eq s := (h'.isAccepting_eq s).trans (h.isAccepting_eq s)
  transition_iff s c t := by
    rw [h'.transition_iff, h.transition_iff, List.mem_append, or_assoc]

/-- **Edges that do not contradict one another can all be added.**  The hypothesis `single` is
about the edges that are there and those in the list together, and it is kept as edges pass from
the list to the automaton. -/
theorem addTransitions_ok (dfa : Dfa) (edges : List (Nat × Char × Nat))
    (ends : ∀ s c t, (s, c, t) ∈ edges →
      s < dfa.numStates ∧ t < dfa.numStates ∧ c ∈ dfa.alphabet)
    (single : ∀ s c t t', (s, c, t) ∈ edges →
      (dfa.transition s c = some t' ∨ (s, c, t') ∈ edges) → t' = t) :
    ∃ dfa', dfa.addTransitions edges = .ok dfa' ∧ Extended dfa dfa' edges := by
  induction edges generalizing dfa with
  | nil => exact ⟨dfa, rfl, id, rfl, rfl, rfl, rfl, fun _ => rfl, by simp⟩
  | cons e rest ih =>
      obtain ⟨s, c, t⟩ := e
      obtain ⟨hs, ht, hc⟩ := ends s c t List.mem_cons_self
      obtain ⟨dfa₁, hok, ext₁⟩ := addTransition_ok hs ht hc fun t' h =>
        single s c t t' List.mem_cons_self (Or.inl h)
      obtain ⟨dfa₂, hok', ext₂⟩ := ih dfa₁
        (fun s' c' t' h => by
          rw [ext₁.numStates_eq, ext₁.alphabet_eq]
          exact ends s' c' t' (List.mem_cons_of_mem _ h))
        (fun s' c' t' t'' h h' => by
          refine single s' c' t' t'' (List.mem_cons_of_mem _ h) ?_
          rw [ext₁.transition_iff, List.mem_singleton, or_assoc] at h'
          exact h'.imp id List.mem_cons.2)
      refine ⟨dfa₂, ?_, ext₁.trans ext₂⟩
      show (dfa.addTransition s c t >>= fun d => d.addTransitions rest) = .ok dfa₂
      rw [hok]
      exact hok'

section

variable {dfa' : Dfa} {edges : List (Nat × Char × Nat)}

theorem addTransitions_append (dfa : Dfa) (edges more : List (Nat × Char × Nat)) :
    dfa.addTransitions (edges ++ more) =
      dfa.addTransitions edges >>= fun d => d.addTransitions more := by
  induction edges generalizing dfa with
  | nil => rfl
  | cons e edges ih =>
      obtain ⟨source, c, target⟩ := e
      simp only [List.cons_append, addTransitions, ih, bind_assoc]

theorem numStates_of_addTransitions (h : dfa.addTransitions edges = .ok dfa') :
    dfa'.numStates = dfa.numStates := by
  induction edges generalizing dfa with
  | nil =>
      cases h
      rfl
  | cons e edges ih =>
      obtain ⟨source, c, target⟩ := e
      obtain ⟨first, hfirst, hrest⟩ := Error.bind_eq_ok_iff.1 h
      rw [ih hrest]
      obtain ⟨-, -, ⟨-, rfl⟩ | ⟨-, rfl⟩⟩ := addTransition_cases hfirst
      · rfl
      · exact numStates_file ..

/-- An edge that is there was there before, or it is one of those that were added.  Unlike
`addTransitions_ok` this asks nothing of the edges except that they were granted. -/
theorem mem_of_addTransitions (h : dfa.addTransitions edges = .ok dfa') {s t : Nat} {c : Char}
    (ht : dfa'.transition s c = some t) : dfa.transition s c = some t ∨ (s, c, t) ∈ edges := by
  induction edges generalizing dfa with
  | nil =>
      cases h
      exact .inl ht
  | cons e edges ih =>
      obtain ⟨source, d, target⟩ := e
      obtain ⟨first, hfirst, hrest⟩ := Error.bind_eq_ok_iff.1 h
      rcases ih hrest with hold | hmem
      · obtain ⟨hsource, -, ⟨-, rfl⟩ | ⟨-, rfl⟩⟩ := addTransition_cases hfirst
        · exact .inl hold
        · rw [transition_file hsource] at hold
          by_cases hsame : s = source ∧ c = d
          · rw [if_pos hsame, Option.some.injEq] at hold
            rw [hsame.1, hsame.2, hold]
            exact .inr List.mem_cons_self
          · rw [if_neg hsame] at hold
            exact .inl hold
      · exact .inr (List.mem_cons_of_mem _ hmem)

end

/-! ### Rows -/

/-- The automaton of a list of rows: one state for every row, and the edges of a row leave its
state.  The symbols that no row has are in the alphabet too. -/
structure Laid (alphabet : Alphabet) (rows : List (Bool × List (Char × Nat))) (dfa : Dfa) :
    Prop where
  built : dfa.Built
  numStates_eq : dfa.numStates = rows.length
  start_eq : dfa.start = 0
  alphabet_eq : dfa.alphabet = alphabet
  mapping_eq : dfa.mapping = none
  isAccepting_iff : ∀ s, dfa.isAccepting s = true ↔ ∃ row, rows[s]? = some row ∧ row.1 = true
  transition_iff : ∀ s c t, dfa.transition s c = some t ↔
    ∃ row, rows[s]? = some row ∧ (c, t) ∈ row.2

/-- The states of a list of rows, without edges. -/
theorem foldl_addState_spec (rows : List (Bool × List (Char × Nat))) (dfa : Dfa) :
    let bare := rows.foldl (fun dfa row => dfa.addState row.1) dfa
    (dfa.Built → bare.Built) ∧ bare.numStates = dfa.numStates + rows.length ∧
      bare.start = dfa.start ∧ bare.alphabet = dfa.alphabet ∧ bare.mapping = dfa.mapping ∧
      (∀ s c, bare.transition s c = dfa.transition s c) ∧
      ∀ s, bare.isAccepting s = if s < dfa.numStates then dfa.isAccepting s
        else (rows[s - dfa.numStates]?.map (·.1)).getD false := by
  induction rows generalizing dfa with
  | nil =>
      refine ⟨id, by simp, rfl, rfl, rfl, fun _ _ => rfl, fun s => ?_⟩
      by_cases h : s < dfa.numStates
      · simp [h]
      · simp [h, isAccepting_eq_false_of_le (Nat.le_of_not_lt h)]
  | cons row rest ih =>
      obtain ⟨hb, hn, hst, ha, hm, ht, hacc⟩ := ih (dfa.addState row.1)
      refine ⟨fun h => hb (h.addState _), ?_, hst, ha, hm, fun s c => ?_, fun s => ?_⟩
      · rw [List.foldl_cons, hn, numStates_addState, List.length_cons]
        omega
      · rw [List.foldl_cons, ht, transition_addState]
      · rw [List.foldl_cons, hacc, isAccepting_addState, numStates_addState]
        rcases Nat.lt_trichotomy s dfa.numStates with h | h | h
        · rw [if_pos (by omega), if_neg (by omega), if_pos h]
        · subst h
          simp
        · rw [if_neg (by omega), if_neg (by omega),
            show s - dfa.numStates = s - (dfa.numStates + 1) + 1 by omega,
            List.getElem?_cons_succ]

theorem mem_rowEdges {rows : List (Bool × List (Char × Nat))} {s : Nat} {c : Char} {t : Nat} :
    (s, c, t) ∈ rows.zipIdx.flatMap (fun (row, source) =>
        row.2.map fun (c, target) => (source, c, target)) ↔
      ∃ row, rows[s]? = some row ∧ (c, t) ∈ row.2 := by
  simp only [List.mem_flatMap, List.mem_map, Prod.exists, Prod.mk.injEq,
    List.mem_zipIdx_iff_getElem?]
  constructor
  · rintro ⟨b, r, i, hrow, c', t', hmem, rfl, rfl, rfl⟩
    exact ⟨b, r, hrow, hmem⟩
  · rintro ⟨b, r, hrow, hmem⟩
    exact ⟨b, r, s, hrow, c, t, hmem, rfl, rfl, rfl⟩

/-- **Rows can be laid out** if they name existing states and symbols of the alphabet, and no row
names a symbol twice.  Rows may name later rows, since all states are there before the first
edge. -/
theorem ofRows_ok (alphabet : Alphabet) (rows : List (Bool × List (Char × Nat)))
    (ends : ∀ row ∈ rows, ∀ c t, (c, t) ∈ row.2 → c ∈ alphabet ∧ t < rows.length)
    (single : ∀ row ∈ rows, ∀ c t t', (c, t) ∈ row.2 → (c, t') ∈ row.2 → t' = t) :
    ∃ dfa, ofRows alphabet rows = .ok dfa ∧ Laid alphabet rows dfa := by
  obtain ⟨hb, hn, hst, ha, hm, ht, hacc⟩ := foldl_addState_spec rows (withAlphabet alphabet)
  unfold ofRows
  generalize rows.foldl (fun dfa row => dfa.addState row.1) (withAlphabet alphabet) = bare at *
  rw [numStates_withAlphabet, Nat.zero_add] at hn
  obtain ⟨dfa, hok, ext⟩ := addTransitions_ok bare
    (rows.zipIdx.flatMap fun (row, source) =>
      row.2.map fun (c, target) => (source, c, target))
    -- the ends of an edge are there
    (fun s c t h => by
      obtain ⟨row, hrow, hmem⟩ := mem_rowEdges.1 h
      obtain ⟨hc, hlt⟩ := ends row (List.mem_of_getElem? hrow) c t hmem
      obtain ⟨hs, -⟩ := List.getElem?_eq_some_iff.1 hrow
      rw [hn, ha]
      exact ⟨hs, hlt, hc⟩)
    -- an edge has no rival, in the bare automaton or among the others
    (fun s c t t' h h' => by
      obtain ⟨row, hrow, hmem⟩ := mem_rowEdges.1 h
      rcases h' with h' | h'
      · rw [ht, transition_withAlphabet] at h'
        cases h'
      · obtain ⟨row', hrow', hmem'⟩ := mem_rowEdges.1 h'
        rw [hrow, Option.some.injEq] at hrow'
        subst hrow'
        exact single row (List.mem_of_getElem? hrow) c t t' hmem hmem')
  refine ⟨dfa, hok, ext.built (hb (.withAlphabet _)), ext.numStates_eq.trans hn,
    ext.start_eq.trans hst, ext.alphabet_eq.trans ha, ext.mapping_eq.trans hm,
    fun s => ?_, fun s c t => ?_⟩
  · rw [ext.isAccepting_eq, hacc]
    cases hrow : rows[s]? <;> simp [hrow]
  · rw [ext.transition_iff, ht, transition_withAlphabet, mem_rowEdges]
    simp

end PatternAutomata.Dfa
