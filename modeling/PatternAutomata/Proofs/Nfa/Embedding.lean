import PatternAutomata.Nfa.Operators
import PatternAutomata.Proofs.Nfa.Path

/-!
# Automata within automata

The operators on automata copy their operands into a larger automaton.  What edges the rows of
such an automaton have can be read off how they are put together, and a path through it can be cut
where it leaves a copy.

## The edges of rows

The rows of an operator are put together from a few pieces: a fork, moved copies of the operands,
an empty row, and links.  What edges each piece has is said once, by an equivalence for
`Nfa.Leads`, and rewriting with these tells the edges of any operator.

## Leaving a copy

`Nfa.Embeds` says of a larger automaton that it has a copy of a smaller one, which can be left
from its accepting states only, and only to some exits.  From this alone it follows that a path
which starts in the copy stays there or leaves it through an exit (`Nfa.Embeds.path_cases`).  Thus
what is read inside the copy is a word of the operand (`Nfa.Embeds.accepts_of_path`), and
conversely every word of the operand leads through (`Nfa.Embeds.path_of_accepts`).  The language
of an operator is found by using these two where it has copies, and nothing is said about its
edges again.

Repetition fits in as well: the exits may lead back into the copy.  The induction is along the
path, which is cut at the first exit that is taken.
-/

namespace PatternAutomata.Nfa

variable {a nfa : Nfa} {s t : Nat} {w : List Char}

/-! ### The edges of rows -/

/-- The targets under a label.  A symbol that is not listed has none. -/
def Row.targets (row : Row) : Label → StateSet
  | .epsilon => row.silent
  | .symbol c => (row.on? c).getD ∅

/-- Among some rows, an edge under a label leads from a state to a state.  It is about rows and
not automata, since an operator makes its rows before it has an automaton. -/
def Leads (rows : Array Row) (s : Nat) (label : Label) (t : Nat) : Prop :=
  ∃ row, rows[s]? = some row ∧ t ∈ row.targets label

theorem mem_silent : t ∈ nfa.silent s ↔ Leads nfa.rows s .epsilon t := by
  constructor
  · intro h
    have hrow := Array.getElem?_eq_getElem (lt_of_mem_silent h)
    exact ⟨_, hrow, by rwa [silent_eq hrow] at h⟩
  · rintro ⟨row, hrow, h⟩
    rwa [silent_eq hrow]

theorem mem_on {c : Char} : t ∈ nfa.on s c ↔ Leads nfa.rows s (.symbol c) t := by
  constructor
  · intro h
    have hrow := Array.getElem?_eq_getElem (lt_of_mem_on h)
    exact ⟨_, hrow, by rwa [on_eq hrow] at h⟩
  · rintro ⟨row, hrow, h⟩
    rwa [on_eq hrow]

theorem Leads.lt {rows : Array Row} {l : Label} (h : Leads rows s l t) : s < rows.size := by
  obtain ⟨row, hrow, -⟩ := h
  exact (Array.getElem?_eq_some_iff.1 hrow).1

theorem leads_append {rows more : Array Row} {l : Label} :
    Leads (rows ++ more) s l t ↔
      Leads rows s l t ∨ ∃ r, s = rows.size + r ∧ Leads more r l t := by
  constructor
  · rintro ⟨row, hrow, h⟩
    rcases Nat.lt_or_ge s rows.size with hs | hs
    · rw [Array.getElem?_append_left hs] at hrow
      exact Or.inl ⟨row, hrow, h⟩
    · rw [Array.getElem?_append_right hs] at hrow
      exact Or.inr ⟨s - rows.size, by omega, row, hrow, h⟩
  · rintro (h | ⟨r, rfl, row, hrow, h⟩)
    · obtain ⟨row, hrow, ht⟩ := h
      refine ⟨row, ?_, ht⟩
      rw [Array.getElem?_append_left (Leads.lt ⟨row, hrow, ht⟩), hrow]
    · exact ⟨row, by simp [Array.getElem?_append, hrow], h⟩

theorem leads_singleton {row : Row} {l : Label} :
    Leads #[row] s l t ↔ s = 0 ∧ t ∈ row.targets l := by
  constructor
  · rintro ⟨row', hrow, h⟩
    obtain ⟨hs, rfl⟩ := Array.getElem?_eq_some_iff.1 hrow
    simp only [List.size_toArray, List.length_singleton, Nat.lt_one_iff] at hs
    subst hs
    exact ⟨rfl, h⟩
  · rintro ⟨rfl, h⟩
    exact ⟨row, rfl, h⟩

theorem mem_targets_fork {targets : List Nat} {l : Label} :
    t ∈ (fork targets).targets l ↔ l = .epsilon ∧ t ∈ targets := by
  cases l with
  | epsilon => simp [fork, Row.targets, StateSet.mem_ofList]
  | symbol c => simp [fork, Row.targets, Row.on?]

theorem not_mem_targets_empty (l : Label) : t ∉ Row.empty.targets l := by
  cases l <;> simp [Row.empty, Row.targets, Row.on?]

theorem mem_targets_shift {row : Row} {offset : Nat} {l : Label} :
    t ∈ (row.shift offset).targets l ↔ ∃ r, t = offset + r ∧ r ∈ row.targets l := by
  cases l with
  | epsilon =>
      simp only [Row.targets, Row.shift, StateSet.mem_shift]
      exact exists_congr fun r => and_comm
  | symbol c =>
      simp only [Row.targets, Row.shift, Row.on?]
      induction row.moves with
      | nil => simp
      | cons move moves ih =>
          rw [List.map_cons, List.lookup_cons, List.lookup_cons]
          cases c == move.1 with
          | true =>
              simp only [Option.getD_some, StateSet.mem_shift]
              exact exists_congr fun r => and_comm
          | false => exact ih

theorem leads_shiftedRows {offset : Nat} {l : Label} :
    Leads (a.shiftedRows offset) s l t ↔ ∃ r, t = offset + r ∧ Leads a.rows s l r := by
  constructor
  · rintro ⟨row, hrow, h⟩
    rw [shiftedRows, Array.getElem?_map, Option.map_eq_some_iff] at hrow
    obtain ⟨row, hrow, rfl⟩ := hrow
    obtain ⟨r, rfl, hr⟩ := mem_targets_shift.1 h
    exact ⟨r, rfl, row, hrow, hr⟩
  · rintro ⟨r, rfl, row, hrow, hr⟩
    refine ⟨row.shift offset, ?_, mem_targets_shift.2 ⟨r, rfl, hr⟩⟩
    rw [shiftedRows, Array.getElem?_map, hrow]
    rfl

/-- A target under a symbol is listed with the others under that symbol, in the entry that is
found first. -/
theorem mem_lookup_insertMove {moves : List (Char × StateSet)} {b c : Char} {target : Nat} :
    t ∈ ((Row.insertMove b target moves).lookup c).getD ∅ ↔
      t ∈ (moves.lookup c).getD ∅ ∨ c = b ∧ t = target := by
  induction moves with
  | nil =>
      rw [Row.insertMove, List.lookup_cons]
      by_cases hc : c = b
      · simp [hc, StateSet.mem_singleton]
      · simp [hc, beq_eq_false_iff_ne.2 hc]
  | cons move moves ih =>
      obtain ⟨d, targets⟩ := move
      rw [Row.insertMove]
      by_cases hd : d = b
      · subst hd
        rw [if_pos rfl, List.lookup_cons, List.lookup_cons]
        by_cases hc : c = d
        · simp [hc, Std.ExtTreeSet.mem_insert, or_comm, eq_comm (a := t)]
        · simp [hc, beq_eq_false_iff_ne.2 hc]
      · rw [if_neg hd, List.lookup_cons, List.lookup_cons]
        by_cases hc : c = d
        · subst hc
          simp [hd]
        · simp only [beq_eq_false_iff_ne.2 hc]
          exact ih

theorem mem_targets_addEdge {row : Row} {label l : Label} {target : Nat} :
    t ∈ (row.addEdge label target).targets l ↔ t ∈ row.targets l ∨ l = label ∧ t = target := by
  cases label with
  | epsilon =>
      cases l with
      | epsilon =>
          simp only [Row.addEdge, Row.targets, Std.ExtTreeSet.mem_insert, Nat.compare_eq_eq]
          rw [or_comm, eq_comm]
          simp
      | symbol c => simp [Row.addEdge, Row.targets, Row.on?]
  | symbol b =>
      cases l with
      | epsilon => simp [Row.addEdge, Row.targets]
      | symbol c =>
          rw [Label.symbol.injEq]
          exact mem_lookup_insertMove

@[simp] theorem size_link (rows : Array Row) (sources : List Nat) (target : Nat) :
    (link rows sources target).size = rows.size := by
  unfold link
  induction sources generalizing rows with
  | nil => rfl
  | cons q sources ih => rw [List.foldl_cons, ih, Array.size_modify]

/-- A new edge leads from its source to its target, and nothing else is changed. -/
theorem leads_modify_addEdge {rows : Array Row} {q target : Nat} {label l : Label} :
    Leads (rows.modify q fun row => row.addEdge label target) s l t ↔
      Leads rows s l t ∨ l = label ∧ s = q ∧ s < rows.size ∧ t = target := by
  constructor
  · rintro ⟨row, hrow, h⟩
    rw [Array.getElem?_modify] at hrow
    split at hrow
    · rename_i hq
      obtain ⟨row', hrow', rfl⟩ := Option.map_eq_some_iff.1 hrow
      rcases mem_targets_addEdge.1 h with h | ⟨rfl, rfl⟩
      · exact Or.inl ⟨row', hrow', h⟩
      · exact Or.inr ⟨rfl, hq.symm, (Array.getElem?_eq_some_iff.1 hrow').1, rfl⟩
    · exact Or.inl ⟨row, hrow, h⟩
  · rintro (⟨row, hrow, h⟩ | ⟨rfl, rfl, hs, rfl⟩)
    · by_cases hq : q = s
      · refine ⟨row.addEdge label target, ?_, mem_targets_addEdge.2 (Or.inl h)⟩
        rw [Array.getElem?_modify, if_pos hq, hrow]
        rfl
      · exact ⟨row, by rw [Array.getElem?_modify, if_neg hq, hrow], h⟩
    · refine ⟨rows[s].addEdge l t, ?_, mem_targets_addEdge.2 (Or.inr ⟨rfl, rfl⟩)⟩
      rw [Array.getElem?_modify, if_pos rfl, Array.getElem?_eq_getElem hs]
      rfl

/-- Links lead from their sources to their target, and change nothing else.  Sources that are not
there are passed over. -/
theorem leads_link {rows : Array Row} {sources : List Nat} {target : Nat} {l : Label} :
    Leads (link rows sources target) s l t ↔
      Leads rows s l t ∨ l = .epsilon ∧ s ∈ sources ∧ s < rows.size ∧ t = target := by
  unfold link
  induction sources generalizing rows with
  | nil => simp
  | cons q sources ih =>
      rw [List.foldl_cons, ih, leads_modify_addEdge, Array.size_modify, or_assoc]
      refine or_congr_right ?_
      rw [List.mem_cons, ← and_or_left, ← or_and_right]

@[simp] theorem size_shiftedRows (a : Nfa) (offset : Nat) :
    (a.shiftedRows offset).size = a.numStates := by
  rw [shiftedRows, Array.size_map]
  rfl

theorem mem_shiftedAccepting {offset : Nat} :
    s ∈ a.shiftedAccepting offset ↔ ∃ r ∈ a.accepting, s = offset + r := by
  simp [shiftedAccepting, Std.ExtTreeSet.mem_toList, eq_comm]

/-- An automaton is well formed if its edges are, whatever their label. -/
theorem wellFormed_of_leads (hstart : nfa.start < nfa.numStates)
    (hacc : ∀ s ∈ nfa.accepting, s < nfa.numStates)
    (hlt : ∀ s l t, Leads nfa.rows s l t → t < nfa.numStates)
    (hmem : ∀ s c t, Leads nfa.rows s (.symbol c) t → c ∈ nfa.alphabet) : nfa.WellFormed where
  start_lt := hstart
  accepting_lt := hacc
  silent_lt s t h := hlt s _ t (mem_silent.1 h)
  on_lt s _ t h := hlt s _ t (mem_on.1 h)
  mem_alphabet s c t h := hmem s c t (mem_on.1 h)

theorem WellFormed.lt_of_leads (wf : nfa.WellFormed) {l : Label} (h : Leads nfa.rows s l t) :
    t < nfa.numStates := by
  cases l with
  | epsilon => exact wf.silent_lt s t (mem_silent.2 h)
  | symbol c => exact wf.on_lt s c t (mem_on.2 h)

theorem WellFormed.mem_alphabet_of_leads (wf : nfa.WellFormed) {c : Char}
    (h : Leads nfa.rows s (.symbol c) t) : c ∈ nfa.alphabet :=
  wf.mem_alphabet s c t (mem_on.2 h)

/-! ### Paths through copies, forks and ends -/

/-- From a state without edges only the word without symbols leads anywhere, and it leads to the
state itself. -/
theorem Path.of_stuck (stuck : ∀ l t, ¬ Leads nfa.rows s l t) (h : nfa.Path s w t) :
    w = [] ∧ t = s := by
  cases h with
  | nil => exact ⟨rfl, rfl⟩
  | silent e => exact absurd (mem_silent.1 e) (stuck _ _)
  | symbol e => exact absurd (mem_on.1 e) (stuck _ _)

/-- A path that leaves a fork goes on from one of its targets, with the same word. -/
theorem Path.of_fork {targets : List Nat}
    (forks : ∀ l t, Leads nfa.rows s l t → l = .epsilon ∧ t ∈ targets) (h : nfa.Path s w t)
    (hne : t ≠ s) : ∃ r ∈ targets, nfa.Path r w t := by
  cases h with
  | nil => exact absurd rfl hne
  | silent e path => exact ⟨_, (forks _ _ (mem_silent.1 e)).2, path⟩
  | symbol e path => exact absurd (forks _ _ (mem_on.1 e)).1 (by simp)

/-- `Embeds a nfa offset exits`: from `offset` on, `nfa` has a copy of `a`.  The copy is left
along epsilon edges from its accepting states to `exits`, and not otherwise.  How it is entered is
left open, and so are the edges of other states. -/
def Embeds (a nfa : Nfa) (offset : Nat) (exits : List Nat) : Prop :=
  ∀ s, s < a.numStates → ∀ l t, Leads nfa.rows (offset + s) l t ↔
    (∃ r, t = offset + r ∧ Leads a.rows s l r) ∨ l = .epsilon ∧ s ∈ a.accepting ∧ t ∈ exits

namespace Embeds

variable {offset : Nat} {exits : List Nat}

/-- A path of the operand is a path of the copy.  The operand has to be well-formed, so that the
path stays among its states. -/
theorem path (e : Embeds a nfa offset exits) (wf : a.WellFormed) (h : a.Path s w t)
    (hs : s < a.numStates) : nfa.Path (offset + s) w (offset + t) := by
  induction h with
  | nil s => exact .nil _
  | @silent s r t w edge _ ih =>
      have := (e s hs .epsilon (offset + r)).2 (Or.inl ⟨r, rfl, mem_silent.1 edge⟩)
      exact .silent (mem_silent.2 this) (ih (wf.silent_lt _ _ edge))
  | @symbol s r t c w edge _ ih =>
      have := (e s hs (.symbol c) (offset + r)).2 (Or.inl ⟨r, rfl, mem_on.1 edge⟩)
      exact .symbol (mem_on.2 this) (ih (wf.on_lt _ _ _ edge))

/-- An accepting state of the copy can be left to each exit. -/
theorem exit (e : Embeds a nfa offset exits) (wf : a.WellFormed) {f x : Nat}
    (hf : f ∈ a.accepting) (hx : x ∈ exits) (h : nfa.Path x w t) :
    nfa.Path (offset + f) w t :=
  .silent (mem_silent.2 ((e f (wf.accepting_lt f hf) .epsilon x).2 (Or.inr ⟨rfl, hf, hx⟩))) h

/-- **A path that starts in the copy stays there, or it leaves the copy** from an accepting state
to one of the exits.  What comes after the first exit may enter the copy again. -/
theorem path_cases (e : Embeds a nfa offset exits) (wf : a.WellFormed) (hs : s < a.numStates)
    (h : nfa.Path (offset + s) w t) :
    (∃ r, t = offset + r ∧ a.Path s w r) ∨
      ∃ u v, w = u ++ v ∧ ∃ f ∈ a.accepting, a.Path s u f ∧ ∃ x ∈ exits, nfa.Path x v t := by
  -- the induction is along the path, which ends in the copy or at the first exit that is taken
  generalize hp : offset + s = p at h
  induction h generalizing s with
  | nil p => exact Or.inl ⟨s, hp.symm, .nil s⟩
  | @silent p q t w edge path ih =>
      subst hp
      rcases (e s hs _ _).1 (mem_silent.1 edge) with ⟨r, rfl, hr⟩ | ⟨-, hacc, hq⟩
      · rcases ih (wf.lt_of_leads hr) rfl with ⟨z, hz, inner⟩ | ⟨u, v, rfl, f, hf, inner, rest⟩
        · exact Or.inl ⟨z, hz, .silent (mem_silent.2 hr) inner⟩
        · exact Or.inr ⟨u, v, rfl, f, hf, .silent (mem_silent.2 hr) inner, rest⟩
      · exact Or.inr ⟨[], w, rfl, s, hacc, .nil s, q, hq, path⟩
  | @symbol p q t c w edge path ih =>
      subst hp
      rcases (e s hs _ _).1 (mem_on.1 edge) with ⟨r, rfl, hr⟩ | ⟨h, -⟩
      · rcases ih (wf.lt_of_leads hr) rfl with ⟨z, hz, inner⟩ | ⟨u, v, rfl, f, hf, inner, rest⟩
        · exact Or.inl ⟨z, hz, .symbol (mem_on.2 hr) inner⟩
        · exact Or.inr ⟨c :: u, v, rfl, f, hf, .symbol (mem_on.2 hr) inner, rest⟩
      · cases h

/-- A path from the start of the copy to a state outside it reads a word of the operand first. -/
theorem accepts_of_path (e : Embeds a nfa offset exits) (wf : a.WellFormed)
    (h : nfa.Path (offset + a.start) w t) (ht : offset + a.numStates ≤ t) :
    ∃ u v, w = u ++ v ∧ a.accepts u = true ∧ ∃ x ∈ exits, nfa.Path x v t := by
  rcases e.path_cases wf wf.start_lt h with ⟨r, rfl, inner⟩ | ⟨u, v, rfl, f, hf, inner, rest⟩
  · have := wf.path_lt inner wf.start_lt
    omega
  · exact ⟨u, v, rfl, accepts_iff.2 ⟨f, hf, inner⟩, rest⟩

/-- A word of the operand leads from the start of the copy to the exits, and whatever can be read
from there follows. -/
theorem path_of_accepts (e : Embeds a nfa offset exits) (wf : a.WellFormed) {u v : List Char}
    (hu : a.accepts u = true) {x : Nat} (hx : x ∈ exits) (h : nfa.Path x v t) :
    nfa.Path (offset + a.start) (u ++ v) t := by
  obtain ⟨f, hf, inner⟩ := accepts_iff.1 hu
  exact (e.path wf inner wf.start_lt).append (e.exit wf hf hx h)

end Embeds

end PatternAutomata.Nfa
