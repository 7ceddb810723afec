import Mathlib.Data.List.Sort
import PatternAutomata.Proofs.Nfa.Walks
import PatternAutomata.Proofs.Text.Unescaped

/-!
# What is told by the edges as they are shown

Epsilon is shown by the letter `ε`, and so is the symbol `ε`.  All other symbols are told apart by
their written forms, from one another and from epsilon.  Hence different automata may be shown
alike, and `Nfa.Obtainable.display_ambiguity` says exactly which.

## Where the two can be told apart

Epsilon edges come first.  So the letter stands for the symbol wherever something comes before it,
and where it comes twice in a row it is first epsilon and then the symbol.  What remains is a
state with either kind of edges and without edges under symbols that come before `ε`: there
epsilon edges may be mistaken for edges under the symbol (`Nfa.Mistaken`), and nowhere else.

## Row by row

An automaton is shown state by state, and states without edges are left out.  As the states that
are shown have their numbers, two automata are shown alike iff their rows are
(`Nfa.display_eq_iff`), and the question is one about two rows.  A row is shown as its epsilon
edges followed by the symbols in order, so what is shown determines the symbols that are listed,
up to the first of them (`Nfa.Row.Tidy.shown_eq_iff`).

The rows have to be tidy for this: a symbol without a target would be shown with an empty list of
targets although it has no edge.  All automata that can be obtained are tidy.
-/

namespace PatternAutomata

/-! ### Labels -/

theorem Text.escape_epsilon : Text.escape 'ε' = ['ε'] := by decide

theorem Text.escape_eq_epsilon_iff {c : Char} : Text.escape c = ['ε'] ↔ c = 'ε' := by
  rw [← Text.escape_epsilon]
  exact Text.escape_injective.eq_iff

/-- **Labels that are shown alike** are the same, or one is epsilon and the other the symbol `ε`.
Written forms of different symbols differ, so this is the only way for two labels to be confused. -/
theorem Label.display_eq_iff {l l' : Label} : l.display = l'.display ↔
    l = l' ∨ l = .epsilon ∧ l' = .symbol 'ε' ∨ l = .symbol 'ε' ∧ l' = .epsilon := by
  cases l with
  | epsilon =>
      cases l' with
      | epsilon => simp
      | symbol c => simp [display, eq_comm (a := ['ε']), Text.escape_eq_epsilon_iff]
  | symbol c =>
      cases l' with
      | epsilon => simp [display, Text.escape_eq_epsilon_iff]
      | symbol d => simp [display, Text.escape_injective.eq_iff]

namespace Nfa

variable {a b : Nfa} {s t : Nat} {row row' : Row}

/-! ### Rows -/

namespace Row

/-- The edges under symbols, by symbol.  In the row itself they are in the order in which they
were added. -/
def ascending (row : Row) : List (Char × StateSet) :=
  row.moves.mergeSort fun a b => a.1 ≤ b.1

/-- The edges under a symbol as they are shown: its written form and the targets. -/
def written (move : Char × StateSet) : List Char × List Nat :=
  (Text.escape move.1, move.2.toList)

/-- The edges of a row as they are shown, epsilon first. -/
def shown (row : Row) : List (List Char × List Nat) :=
  row.sorted.map fun (label, targets) => (label.display, targets.toList)

theorem eq_of_toList_eq {targets targets' : StateSet} (h : targets.toList = targets'.toList) :
    targets = targets' := by
  ext t
  rw [← Std.ExtTreeSet.mem_toList, ← Std.ExtTreeSet.mem_toList, h]

theorem written_injective : Function.Injective written := by
  rintro ⟨c, targets⟩ ⟨d, targets'⟩ h
  obtain ⟨hc, htargets⟩ := Prod.mk.inj h
  exact Prod.ext (Text.escape_injective hc) (eq_of_toList_eq htargets)

theorem shown_of_silent (h : row.silent ≠ ∅) :
    row.shown = written ('ε', row.silent) :: row.ascending.map written := by
  have nonempty : row.silent.isEmpty = false := by
    rw [← Bool.not_eq_true, Std.ExtTreeSet.isEmpty_iff]
    exact h
  rw [shown, sorted, nonempty, List.map_append, List.map_map, written, Text.escape_epsilon]
  rfl

theorem shown_of_not_silent (h : row.silent = ∅) : row.shown = row.ascending.map written := by
  rw [shown, sorted, h, List.map_append, List.map_map]
  rfl

/-- The edges under a symbol are listed with it, if there are any.  A symbol is listed just when
it has a target. -/
theorem Tidy.mem_ascending (tidy : row.Tidy) {c : Char} {targets : StateSet} :
    (c, targets) ∈ row.ascending ↔ row.targets (.symbol c) = targets ∧ targets ≠ ∅ := by
  rw [ascending, List.mem_mergeSort]
  constructor
  · intro h
    obtain ⟨t, ht⟩ := tidy.nonempty _ h
    rw [Row.targets, tidy.on?_eq h]
    exact ⟨rfl, fun hempty => Std.ExtTreeSet.not_mem_empty (hempty ▸ ht)⟩
  · rintro ⟨rfl, hne⟩
    rw [Row.targets, on?] at hne ⊢
    cases hlookup : row.moves.lookup c with
    | none =>
        rw [hlookup] at hne
        exact absurd rfl hne
    | some targets =>
        obtain ⟨before, after, hmoves, -⟩ := List.lookup_eq_some_iff.1 hlookup
        rw [hmoves]
        exact List.mem_append_right _ List.mem_cons_self

theorem Tidy.pairwise_ascending (tidy : row.Tidy) :
    row.ascending.Pairwise fun a b => a.1 < b.1 := by
  have sorted : row.ascending.Pairwise fun a b => a.1 ≤ b.1 := by
    have := @List.pairwise_mergeSort _ (fun a b : Char × StateSet => decide (a.1 ≤ b.1))
      (fun a b c h h' => by simpa using le_trans (by simpa using h) (by simpa using h'))
      (fun a b => by simpa using le_total a.1 b.1) row.moves
    exact this.imp of_decide_eq_true
  have distinct : (row.ascending.map (·.1)).Nodup :=
    ((List.mergeSort_perm row.moves _).map _).nodup_iff.2 tidy.distinct
  rw [List.Nodup, List.pairwise_map] at distinct
  exact (sorted.and distinct).imp fun h => lt_of_le_of_ne h.1 h.2

/-- The edges under symbols are listed in one way only, as a list in strictly ascending order is
determined by its members. -/
theorem Tidy.ascending_eq (tidy : row.Tidy) {list : List (Char × StateSet)}
    (sorted : list.Pairwise fun a b => a.1 < b.1)
    (h : ∀ c targets, (c, targets) ∈ list ↔ row.targets (.symbol c) = targets ∧ targets ≠ ∅) :
    row.ascending = list := by
  have : Std.Antisymm fun a b : Char × StateSet => a.1 < b.1 :=
    ⟨fun a b hab hba => absurd hab (lt_asymm hba)⟩
  have : Std.Irrefl fun a b : Char × StateSet => a.1 < b.1 := ⟨fun a => lt_irrefl a.1⟩
  exact tidy.pairwise_ascending.eq_of_mem_iff sorted fun ⟨c, targets⟩ =>
    tidy.mem_ascending.trans (h c targets).symm

/-- Symbols that are listed alike have the same targets, none if they are not listed. -/
theorem Tidy.targets_eq (tidy : row.Tidy) (tidy' : row'.Tidy) {c : Char}
    (h : ∀ targets, (c, targets) ∈ row.ascending ↔ (c, targets) ∈ row'.ascending) :
    row.targets (.symbol c) = row'.targets (.symbol c) := by
  by_cases hne : row.targets (.symbol c) = ∅
  · rw [hne]
    by_contra hne'
    have listed := (h _).2 (tidy'.mem_ascending.2 ⟨rfl, Ne.symm hne'⟩)
    exact hne' (hne ▸ (tidy.mem_ascending.1 listed).1)
  · have listed := (h _).1 (tidy.mem_ascending.2 ⟨rfl, hne⟩)
    exact (tidy'.mem_ascending.1 listed).1.symm

/-- The edges under symbols are the same iff they are listed alike; the order in which they were
added is not told. -/
theorem Tidy.ascending_eq_iff (tidy : row.Tidy) (tidy' : row'.Tidy) :
    row.ascending = row'.ascending ↔
      ∀ c, row.targets (.symbol c) = row'.targets (.symbol c) := by
  constructor
  · intro h c
    exact tidy.targets_eq tidy' fun targets => by rw [h]
  · intro h
    refine tidy.ascending_eq tidy'.pairwise_ascending fun c targets => ?_
    rw [tidy'.mem_ascending, h]

/-- `row.Mistaken row'`: the epsilon edges of one row look like the edges of the other under the
symbol `ε`, and all else is the same.  The other row has no epsilon edges, or they would come
first. -/
structure Mistaken (row row' : Row) : Prop where
  silent_ne : row.silent ≠ ∅
  not_silent : row'.silent = ∅
  silent_eq : row.silent = row'.targets (.symbol 'ε')
  first : ∀ c, c ≤ 'ε' → row.targets (.symbol c) = ∅
  others : ∀ c, c ≠ 'ε' → row.targets (.symbol c) = row'.targets (.symbol c)

/-- **Epsilon edges are mistaken** where they are listed as the first edges under a symbol.  So
confusion is an equation between two lists. -/
theorem Tidy.mistaken_iff (tidy : row.Tidy) (tidy' : row'.Tidy) (h : row.silent ≠ ∅)
    (h' : row'.silent = ∅) :
    row.Mistaken row' ↔ ('ε', row.silent) :: row.ascending = row'.ascending := by
  constructor
  · intro mistaken
    -- the moves on symbols all lie above `ε`, so the silent row stands in front of them in order
    have above : ∀ move ∈ row.ascending, 'ε' < move.1 := by
      intro move hmove
      by_contra hle
      obtain ⟨htargets, hne⟩ := tidy.mem_ascending.1 hmove
      exact hne (htargets ▸ mistaken.first _ (not_lt.1 hle))
    symm
    refine tidy'.ascending_eq (List.pairwise_cons.2 ⟨above, tidy.pairwise_ascending⟩)
      fun c targets => ?_
    rw [List.mem_cons, tidy.mem_ascending, Prod.mk.injEq]
    by_cases hc : c = 'ε'
    · subst hc
      rw [mistaken.first _ le_rfl, ← mistaken.silent_eq]
      constructor
      · rintro (⟨-, rfl⟩ | ⟨rfl, hne⟩)
        · exact ⟨rfl, h⟩
        · exact absurd rfl hne
      · rintro ⟨rfl, -⟩
        exact .inl ⟨rfl, rfl⟩
    · rw [mistaken.others c hc]
      exact or_iff_right fun heq => hc heq.1
  · intro hlist
    have sorted := tidy'.pairwise_ascending
    rw [← hlist, List.pairwise_cons] at sorted
    have listed : ('ε', row.silent) ∈ row'.ascending := hlist ▸ List.mem_cons_self
    refine ⟨h, h', (tidy'.mem_ascending.1 listed).1.symm, fun c hc => ?_, fun c hc => ?_⟩
    -- a symbol not above `ε` with targets would be listed in front of the head
    · by_contra hne
      exact not_lt.2 hc (sorted.1 _ (tidy.mem_ascending.2 ⟨rfl, hne⟩))
    · refine tidy.targets_eq tidy' fun targets => ?_
      rw [← hlist, List.mem_cons, Prod.mk.injEq]
      exact (or_iff_right fun heq => hc heq.1).symm

/-- **Rows that are shown alike** have the same edges, but for epsilon edges that are mistaken, in
one of the rows or in the other. -/
theorem Tidy.shown_eq_iff (tidy : row.Tidy) (tidy' : row'.Tidy) : row.shown = row'.shown ↔
    (∀ label, row.targets label = row'.targets label) ∨
      row.Mistaken row' ∨ row'.Mistaken row := by
  have same : (∀ label, row.targets label = row'.targets label) ↔
      row.silent = row'.silent ∧ row.ascending = row'.ascending := by
    rw [tidy.ascending_eq_iff tidy']
    refine ⟨fun h => ⟨h .epsilon, fun c => h (.symbol c)⟩, fun h label => ?_⟩
    cases label with
    | epsilon => exact h.1
    | symbol c => exact h.2 c
  rw [same]
  by_cases h : row.silent = ∅
  · by_cases h' : row'.silent = ∅
    · rw [shown_of_not_silent h, shown_of_not_silent h', written_injective.list_map.eq_iff]
      have mistaken : ¬ row.Mistaken row' := fun mistaken => mistaken.silent_ne h
      have mistaken' : ¬ row'.Mistaken row := fun mistaken => mistaken.silent_ne h'
      simp [h, h', mistaken, mistaken']
    · have mistaken : ¬ row.Mistaken row' := fun mistaken => mistaken.silent_ne h
      rw [shown_of_not_silent h, shown_of_silent h', ← List.map_cons,
        written_injective.list_map.eq_iff, eq_comm, ← tidy'.mistaken_iff tidy h' h]
      simp [h, Ne.symm h', mistaken]
  · by_cases h' : row'.silent = ∅
    · have mistaken : ¬ row'.Mistaken row := fun mistaken => mistaken.silent_ne h'
      rw [shown_of_silent h, shown_of_not_silent h', ← List.map_cons,
        written_injective.list_map.eq_iff, ← tidy.mistaken_iff tidy' h h']
      simp [h, h', mistaken]
    · have mistaken : ¬ row.Mistaken row' := fun mistaken => h' mistaken.not_silent
      have mistaken' : ¬ row'.Mistaken row := fun mistaken => h mistaken.not_silent
      rw [shown_of_silent h, shown_of_silent h', ← List.map_cons, ← List.map_cons,
        written_injective.list_map.eq_iff]
      simp [mistaken, mistaken']

end Row

/-! ### Automata -/

/-- The row of a state.  No edge leaves a state that is not there. -/
def rowOf (nfa : Nfa) (s : Nat) : Row :=
  nfa.rows[s]?.getD .empty

theorem Tidy.rowOf {nfa : Nfa} (tidy : nfa.Tidy) (s : Nat) : (nfa.rowOf s).Tidy := by
  unfold Nfa.rowOf
  cases hrow : nfa.rows[s]? with
  | none => exact Row.Tidy.empty
  | some row => exact tidy row (Array.mem_of_getElem? hrow)

theorem leads_iff {nfa : Nfa} {label : Label} :
    Leads nfa.rows s label t ↔ t ∈ (nfa.rowOf s).targets label := by
  unfold Leads rowOf
  cases nfa.rows[s]? with
  | none =>
      refine iff_of_false (by simp) ?_
      cases label <;> exact Std.ExtTreeSet.not_mem_empty
  | some row => simp

theorem lt_of_shown_ne {nfa : Nfa} (h : (nfa.rowOf s).shown ≠ []) : s < nfa.numStates := by
  by_contra hle
  refine h ?_
  rw [rowOf, Array.getElem?_eq_none (Nat.le_of_not_lt hle)]
  simp [Row.shown, Row.sorted, Row.empty]

/-- The states with edges are shown in order, each with the edges of its row. -/
theorem display_eq (nfa : Nfa) : nfa.display = (List.range nfa.numStates).filterMap fun s =>
    if (nfa.rowOf s).shown = [] then none else some (s, (nfa.rowOf s).shown) := by
  have numbered : nfa.numbered = (List.range nfa.numStates).map fun s => (s, nfa.rowOf s) := by
    refine List.ext_getElem (by simp [Nfa.numbered, numStates]) fun i hi hi' => ?_
    have hlt : i < nfa.rows.size := by simpa [numStates] using hi'
    simp [Nfa.numbered, rowOf, hlt]
  rw [display, transitionMap, numbered, List.filterMap_map, List.map_filterMap]
  refine List.filterMap_congr fun s _ => ?_
  simp only [Function.comp_apply, Row.shown, List.map_eq_nil_iff]
  cases (nfa.rowOf s).sorted with
  | nil => rfl
  | cons edge edges => rfl

theorem mem_display {nfa : Nfa} {edges : List (List Char × List Nat)} :
    (s, edges) ∈ nfa.display ↔ (nfa.rowOf s).shown = edges ∧ edges ≠ [] := by
  rw [display_eq, List.mem_filterMap]
  constructor
  · rintro ⟨r, -, hr⟩
    split at hr
    · cases hr
    · cases hr
      exact ⟨rfl, ‹_›⟩
  · rintro ⟨rfl, hne⟩
    exact ⟨s, List.mem_range.2 (lt_of_shown_ne hne), if_neg hne⟩

/-- **Automata are shown alike** iff their rows are.  States without edges are not shown, but
there are as many states in both by hypothesis. -/
theorem display_eq_iff (hn : a.numStates = b.numStates) :
    a.display = b.display ↔ ∀ s, (a.rowOf s).shown = (b.rowOf s).shown := by
  constructor
  · intro h s
    by_cases hne : (a.rowOf s).shown = []
    · by_contra hne'
      have listed : (s, (b.rowOf s).shown) ∈ a.display :=
        h ▸ mem_display.2 ⟨rfl, fun hb => hne' (hne.trans hb.symm)⟩
      exact hne' (mem_display.1 listed).1
    · have listed : (s, (a.rowOf s).shown) ∈ b.display := h ▸ mem_display.2 ⟨rfl, hne⟩
      exact (mem_display.1 listed).1.symm
  · intro h
    rw [display_eq, display_eq, hn]
    simp only [h]

/-- A state has the same edges in two automata, under every label. -/
def Agree (a b : Nfa) (s : Nat) : Prop :=
  ∀ label t, (s, label, t) ∈ a.edges ↔ (s, label, t) ∈ b.edges

/-- `a.Mistaken b s`: the epsilon edges of a state look like those under the symbol `ε` in another
automaton, where it has no epsilon edges; it has none under symbols up to `ε` itself, and the same
as there under all others. -/
structure Mistaken (a b : Nfa) (s : Nat) : Prop where
  silent_ne : a.silent s ≠ ∅
  not_silent : b.silent s = ∅
  silent_eq : a.silent s = b.on s 'ε'
  first : ∀ c, c ≤ 'ε' → a.on s c = ∅
  others : ∀ c, c ≠ 'ε' → a.on s c = b.on s c

theorem silent_eq_rowOf (nfa : Nfa) (s : Nat) : nfa.silent s = (nfa.rowOf s).silent := by
  ext t
  rw [mem_silent, leads_iff]
  rfl

theorem on_eq_rowOf (nfa : Nfa) (s : Nat) (c : Char) :
    nfa.on s c = (nfa.rowOf s).targets (.symbol c) := by
  ext t
  rw [mem_on, leads_iff]

theorem mistaken_iff : a.Mistaken b s ↔ (a.rowOf s).Mistaken (b.rowOf s) := by
  constructor
  · rintro ⟨h₁, h₂, h₃, h₄, h₅⟩
    simp only [silent_eq_rowOf, on_eq_rowOf] at h₁ h₂ h₃ h₄ h₅
    exact ⟨h₁, h₂, h₃, h₄, h₅⟩
  · rintro ⟨h₁, h₂, h₃, h₄, h₅⟩
    simp only [← silent_eq_rowOf, ← on_eq_rowOf] at h₁ h₂ h₃ h₄ h₅
    exact ⟨h₁, h₂, h₃, h₄, h₅⟩

theorem agree_iff (ha : a.Tidy) (hb : b.Tidy) :
    Agree a b s ↔ ∀ label, (a.rowOf s).targets label = (b.rowOf s).targets label := by
  refine forall_congr' fun label => ?_
  simp only [ha.mem_edges, hb.mem_edges, leads_iff]
  exact ⟨fun h => Std.ExtTreeSet.ext_mem h, fun h t => by rw [h]⟩

/-- Where the symbol `ε` is not known, no epsilon edge is mistaken for it, since there would have
to be an edge under that symbol. -/
theorem WellFormed.not_mistaken (wf : b.WellFormed) (h : 'ε' ∉ b.alphabet) :
    ¬ a.Mistaken b s := by
  intro mistaken
  refine mistaken.silent_ne (Std.ExtTreeSet.eq_empty_iff_forall_not_mem.2 fun t ht => ?_)
  exact h (wf.mem_alphabet s 'ε' t (mistaken.silent_eq ▸ ht))

/-- **What automata that are shown alike have in common.**  Every state has the same edges in
both, unless its epsilon edges in one of them are mistaken for edges under the symbol `ε` in the
other; and nothing else can be mistaken, since labels are shown alike only if they are the same or
these two.  So automata that do not know the symbol `ε` are shown alike iff they have the same
edges. -/
theorem Obtainable.display_ambiguity {strategy other : Strategy} (ha : Obtainable strategy a)
    (hb : Obtainable other b) (hn : a.numStates = b.numStates) :
    (a.display = b.display ↔ ∀ s, Agree a b s ∨ a.Mistaken b s ∨ b.Mistaken a s) ∧
    (∀ l l' : Label, l.display = l'.display ↔
      l = l' ∨ l = .epsilon ∧ l' = .symbol 'ε' ∨ l = .symbol 'ε' ∧ l' = .epsilon) ∧
    ('ε' ∉ a.alphabet → 'ε' ∉ b.alphabet →
      (a.display = b.display ↔ ∀ edge, edge ∈ a.edges ↔ edge ∈ b.edges)) := by
  have rows : a.display = b.display ↔ ∀ s, Agree a b s ∨ a.Mistaken b s ∨ b.Mistaken a s := by
    rw [display_eq_iff hn]
    refine forall_congr' fun s => ?_
    rw [(ha.tidy.rowOf s).shown_eq_iff (hb.tidy.rowOf s), agree_iff ha.tidy hb.tidy, mistaken_iff,
      mistaken_iff]
  refine ⟨rows, fun l l' => Label.display_eq_iff, fun hna hnb => rows.trans ⟨fun h edge => ?_,
    fun h s => .inl fun label t => h (s, label, t)⟩⟩
  obtain ⟨s, label, t⟩ := edge
  have agree := (h s).resolve_right fun mistaken =>
    mistaken.elim (hb.wellFormed.not_mistaken hnb) (ha.wellFormed.not_mistaken hna)
  exact agree label t

/-- A single epsilon edge, from the start to an accepting state. -/
def silentEdge : Nfa :=
  ⟨#[⟨[], .singleton 1⟩, .empty], 0, .singleton 1, ∅⟩

theorem obtainable_silentEdge (strategy : Strategy) : Obtainable strategy silentEdge := by
  have states : Builder.Reached strategy ⟨#[.empty, .empty], none, ∅, ∅⟩ := by
    cases strategy with
    | hash => exact .addState (.addState .empty rfl) rfl
    | bit => exact .addState (.addState .empty rfl) rfl
  have edge : Builder.Reached strategy ⟨#[⟨[], .singleton 1⟩, .empty], none, ∅, ∅⟩ :=
    .addEdge states (show Builder.addEdge _ 0 .epsilon 1 = .ok _ from rfl)
  have start : Builder.Reached strategy ⟨#[⟨[], .singleton 1⟩, .empty], some 0, ∅, ∅⟩ :=
    .setStart edge (show Builder.setStart _ 0 = .ok _ from rfl)
  have accepting : Builder.Reached strategy
      ⟨#[⟨[], .singleton 1⟩, .empty], some 0, .singleton 1, ∅⟩ :=
    .addAccepting start (show Builder.addAccepting _ 1 = .ok _ from rfl)
  exact .build accepting rfl

theorem display_silentEdge : silentEdge.display = (oneOf ['ε']).display := by
  cbv

theorem not_agree_silentEdge : ¬ Agree silentEdge (oneOf ['ε']) 0 := fun agree =>
  absurd ((agree .epsilon 1).1 (by decide)) (by decide)

/-- An epsilon edge that is shown as one under the symbol `ε` is mistaken for it. -/
theorem display_ambiguity_of_silentEdge :
    Obtainable .hash silentEdge ∧ Obtainable .bit (oneOf ['ε']) ∧
      silentEdge.numStates = (oneOf ['ε']).numStates ∧
      silentEdge.display = (oneOf ['ε']).display ∧
      (silentEdge.Mistaken (oneOf ['ε']) 0 ∨ (oneOf ['ε']).Mistaken silentEdge 0) := by
  have ha := obtainable_silentEdge .hash
  have hb := Obtainable.oneOf .bit ['ε']
  have alike := (ha.display_ambiguity hb rfl).1.1 display_silentEdge
  exact ⟨ha, hb, rfl, display_silentEdge, (alike 0).resolve_left not_agree_silentEdge⟩

/-- **Different automata may be shown alike**: one reads nothing, and the other reads the symbol
`ε`.  No symbol is reserved for epsilon among the labels, but in the text that is shown one letter
stands for two of them. -/
theorem display_eq_of_epsilon_symbol :
    ∃ a b, Obtainable .hash a ∧ Obtainable .hash b ∧ a.numStates = b.numStates ∧
      a.display = b.display ∧ (0, .epsilon, 1) ∈ a.edges ∧ (0, .epsilon, 1) ∉ b.edges ∧
      (0, .symbol 'ε', 1) ∈ b.edges ∧ (0, .symbol 'ε', 1) ∉ a.edges :=
  ⟨silentEdge, oneOf ['ε'], obtainable_silentEdge .hash, .oneOf .hash ['ε'], rfl,
    display_silentEdge, by decide, by decide, by decide, by decide⟩

end Nfa

end PatternAutomata
