import PatternAutomata.Minimize.Table
import PatternAutomata.Proofs.Dfa.Reachability

/-!
# What a table describes

The table of an automaton moves as the automaton does.  Its indices stand for the states that some
word leads to, and for a sink if an edge out of one of these is missing.

## The sink

A partition is refined with every index moving somewhere under every symbol, so the missing edges
need a target.  The sink is that target.  It accepts nothing and moves to itself, so it takes no
part in what is accepted (`Table.Describes.acceptsFrom_eq`).  There is none if no edge is missing,
and `Table.Describes` says with every field whether it is about states or about the sink.

## Words that tell apart

From two indices the same words are accepted (`Table.Alike`) iff no word tells them apart, and the
words that could are those over the symbols of the table: any other is accepted from nowhere
(`Table.alike_iff`).  The first form is used for automata, the second for the blocks, which are
made without a notion of acceptance.

## Describing instead of building

Only `Table.ofDfa_describes` looks at how a table is built.  Everything that is said of tables
afterwards follows from the description, so the partition and the automaton of its blocks do not
depend on how states are given indices.
-/

namespace PatternAutomata

namespace Table

variable {d : Dfa} {t : Table}

/-! ### Words read by a table -/

/-- Whether a word is accepted from an index.  A symbol that is not in the table is read nowhere,
as in the automaton. -/
def acceptsFrom (t : Table) (index : Nat) : List Char → Bool
  | [] => t.accepts index
  | c :: rest =>
    match t.symbols.idxOf? c with
    | none => false
    | some place => t.acceptsFrom (t.step index place) rest

/-- From two indices the same words are accepted. -/
def Alike (t : Table) (i j : Nat) : Prop :=
  ∀ w, t.acceptsFrom i w = t.acceptsFrom j w

/-- Every index moves to an index under every symbol.  The rows have the length of the list of
symbols, so an entry is found at every place. -/
structure Sound (t : Table) : Prop where
  symbols_nodup : t.symbols.Nodup
  start_lt : t.start < t.size
  row_size : ∀ i, i < t.size → (t.delta.getD i #[]).size = t.symbols.length
  step_lt : ∀ i, i < t.size → ∀ a, a < t.symbols.length → t.step i a < t.size

/-- The place of a symbol is where it stands among the symbols, of which there is just one. -/
theorem Sound.idxOf?_eq_some_iff (sound : t.Sound) {c : Char} {a : Nat} :
    t.symbols.idxOf? c = some a ↔ t.symbols[a]? = some c := by
  rw [List.idxOf?_eq_some_iff]
  constructor
  · rintro ⟨ha, hc, -⟩
    exact List.getElem?_eq_some_iff.2 ⟨ha, hc⟩
  · intro h
    obtain ⟨ha, hc⟩ := List.getElem?_eq_some_iff.1 h
    refine ⟨ha, hc, fun j hj heq => ?_⟩
    exact absurd (sound.symbols_nodup.getElem_inj_iff.1 (heq.trans hc.symm)) (Nat.ne_of_lt hj)

/-- A word that starts with the symbol at a place is read by moving there first. -/
theorem Sound.acceptsFrom_cons (sound : t.Sound) {c : Char} {a : Nat}
    (h : t.symbols[a]? = some c) (i : Nat) (w : List Char) :
    t.acceptsFrom i (c :: w) = t.acceptsFrom (t.step i a) w := by
  rw [acceptsFrom, sound.idxOf?_eq_some_iff.2 h]

/-- Indices from which the same words are accepted move to such indices.  It is the reason why
refinement never parts them. -/
theorem Alike.step (sound : t.Sound) {i j a : Nat} (h : t.Alike i j)
    (ha : a < t.symbols.length) : t.Alike (t.step i a) (t.step j a) := by
  intro w
  have hc := List.getElem?_eq_getElem ha
  rw [← sound.acceptsFrom_cons hc, ← sound.acceptsFrom_cons hc]
  exact h _

/-! ### Words over the symbols -/

/-- The index that a word over the symbols leads to.  It is defined for all words, and means
nothing for others. -/
def lead (t : Table) (index : Nat) (word : List Char) : Nat :=
  word.foldl (fun i c => t.step i (t.symbols.idxOf c)) index

theorem acceptsFrom_cons_of_mem {c : Char} (h : c ∈ t.symbols) (i : Nat) (word : List Char) :
    t.acceptsFrom i (c :: word) = t.acceptsFrom (t.step i (t.symbols.idxOf c)) word := by
  rw [acceptsFrom]
  cases hplace : t.symbols.idxOf? c with
  | none => exact absurd h (List.idxOf?_eq_none_iff.1 hplace)
  | some a =>
      have ha : t.symbols.idxOf c = a := by
        rw [List.idxOf_eq_getD_idxOf?, hplace]
        rfl
      rw [ha]

theorem acceptsFrom_cons_of_not_mem {c : Char} (h : c ∉ t.symbols) (i : Nat) (word : List Char) :
    t.acceptsFrom i (c :: word) = false := by
  rw [acceptsFrom, List.idxOf?_eq_none_iff.2 h]

/-- A word over the symbols is accepted iff it leads to an accepting index, so acceptance is where
the word ends. -/
theorem acceptsFrom_eq_accepts_lead {word : List Char} (h : ∀ c ∈ word, c ∈ t.symbols) (i : Nat) :
    t.acceptsFrom i word = t.accepts (t.lead i word) := by
  induction word generalizing i with
  | nil => rfl
  | cons c word ih =>
      obtain ⟨hc, hword⟩ := List.forall_mem_cons.1 h
      rw [acceptsFrom_cons_of_mem hc, ih hword]
      rfl

theorem acceptsFrom_of_not_mem {word : List Char} {c : Char} (hc : c ∈ word) (h : c ∉ t.symbols)
    (i : Nat) : t.acceptsFrom i word = false := by
  induction word generalizing i with
  | nil => cases hc
  | cons d word ih =>
      by_cases hd : d ∈ t.symbols
      · have hne : c ≠ d := fun e => h (e ▸ hd)
        rw [acceptsFrom_cons_of_mem hd]
        exact ih ((List.mem_cons.1 hc).resolve_left hne) _
      · exact acceptsFrom_cons_of_not_mem hd i word

/-- A word over the symbols tells two indices apart if it leads one of them to an accepting index
and the other one not. -/
def TellsApart (t : Table) (word : List Char) (i j : Nat) : Prop :=
  (∀ c ∈ word, c ∈ t.symbols) ∧ t.accepts (t.lead i word) ≠ t.accepts (t.lead j word)

/-- **From two indices the same words are accepted** iff no word over the symbols tells them
apart.  Words with other symbols are accepted from neither and tell nothing. -/
theorem alike_iff {i j : Nat} : t.Alike i j ↔ ¬ ∃ word, t.TellsApart word i j := by
  constructor
  · rintro alike ⟨word, hword, hne⟩
    rw [← acceptsFrom_eq_accepts_lead hword, ← acceptsFrom_eq_accepts_lead hword] at hne
    exact hne (alike word)
  · intro h word
    by_cases hword : ∀ c ∈ word, c ∈ t.symbols
    · by_contra hne
      rw [acceptsFrom_eq_accepts_lead hword, acceptsFrom_eq_accepts_lead hword] at hne
      exact h ⟨word, hword, hne⟩
    · obtain ⟨c, hc, hmissing⟩ : ∃ c ∈ word, c ∉ t.symbols := by
        simpa only [not_forall, exists_prop] using hword
      rw [acceptsFrom_of_not_mem hc hmissing, acceptsFrom_of_not_mem hc hmissing]

/-! ### Tables of automata -/

/-- `t` is a table of `d`: its indices stand for the states of `d` that are reached, and for a
sink if any of these has an edge missing.  The last field says that there is no sink without need,
which is what keeps minimization from making a dead state. -/
structure Describes (t : Table) (d : Dfa) : Prop where
  sound : t.Sound
  symbols_eq : t.symbols = d.alphabet.toList
  start_eq : t.originals[t.start]? = some d.start
  mem_originals : ∀ s, s ∈ t.originals ↔ ∃ w, d.run w = some s
  size_cases : (t.sink = none ∧ t.size = t.originals.length) ∨
    (t.sink = some t.originals.length ∧ t.size = t.originals.length + 1)
  accepts_eq : ∀ (i : Nat) s, t.originals[i]? = some s → t.accepts i = d.isAccepting s
  step_some : ∀ (i : Nat) s a c u, t.originals[i]? = some s → t.symbols[a]? = some c →
    d.transition s c = some u → t.originals[t.step i a]? = some u
  step_none : ∀ (i : Nat) s a c, t.originals[i]? = some s → t.symbols[a]? = some c →
    d.transition s c = none → t.sink = some (t.step i a)
  step_sink : ∀ z, t.sink = some z → ∀ a, a < t.symbols.length → t.step z a = z
  not_accepts_sink : ∀ z, t.sink = some z → t.accepts z = false
  exists_missing : ∀ z, t.sink = some z →
    ∃ s ∈ t.originals, ∃ c ∈ d.alphabet, d.transition s c = none

/-- Numbering the states of a list and looking a state up are inverse to one another, as no state
is listed twice. -/
theorem getElem?_indices {list : List Nat} (nodup : list.Nodup) {s i : Nat} :
    (Std.ExtTreeMap.ofList list.zipIdx compare)[s]? = some i ↔ list[i]? = some s := by
  have of_getElem? : ∀ i, list[i]? = some s →
      (Std.ExtTreeMap.ofList list.zipIdx compare)[s]? = some i := by
    intro i hi
    refine Std.ExtTreeMap.getElem?_ofList_of_mem Std.ReflCmp.compare_self ?_
      (List.mem_zipIdx_iff_getElem?.2 hi)
    have : (list.zipIdx.map (·.1)).Nodup := by rwa [List.zipIdx_map_fst]
    refine (List.pairwise_map.1 this).imp fun h heq => h ?_
    rwa [Nat.compare_eq_eq] at heq
  constructor
  · intro h
    have hmem : s ∈ Std.ExtTreeMap.ofList list.zipIdx compare :=
      Std.ExtTreeMap.mem_iff_isSome_getElem?.2 (by rw [h]; rfl)
    rw [Std.ExtTreeMap.mem_ofList, List.zipIdx_map_fst, List.contains_iff_mem] at hmem
    obtain ⟨j, hj⟩ := List.mem_iff_getElem?.1 hmem
    rw [of_getElem? j hj, Option.some.injEq] at h
    exact h ▸ hj
  · exact of_getElem? i

/-- The row of an index that stands for a state, place by place. -/
theorem delta_ofDfa {i s : Nat} (h : d.reachable.toList[i]? = some s) :
    (ofDfa d).delta.getD i #[] = (d.alphabet.toList.map fun c =>
      match d.transition s c with
      | none => d.reachable.toList.length
      | some u => (Std.ExtTreeMap.ofList d.reachable.toList.zipIdx compare)[u]?.getD
          d.reachable.toList.length).toArray := by
  obtain ⟨hi, rfl⟩ := List.getElem?_eq_some_iff.1 h
  simp only [ofDfa, Array.getD_eq_getD_getElem?, List.getElem?_toArray]
  rw [List.getElem?_append_left (by simpa using hi)]
  simp only [List.getElem?_map, List.getElem?_eq_getElem hi, Option.map_some, Option.getD_some,
    List.map_map, Function.comp_apply]
  rfl

/-- There is a sink iff an edge out of a reached state is missing.  It accepts nothing and moves
to itself. -/
theorem sink_ofDfa (d : Dfa) :
    ((∀ s ∈ d.reachable.toList, ∀ c ∈ d.alphabet, d.transition s c ≠ none) ∧
      (ofDfa d).sink = none ∧ (ofDfa d).size = d.reachable.toList.length) ∨
    ((∃ s ∈ d.reachable.toList, ∃ c ∈ d.alphabet, d.transition s c = none) ∧
      (ofDfa d).sink = some d.reachable.toList.length ∧
      (ofDfa d).size = d.reachable.toList.length + 1 ∧
      (ofDfa d).accepts d.reachable.toList.length = false ∧
      (ofDfa d).delta.getD d.reachable.toList.length #[] =
        Array.replicate d.alphabet.toList.length d.reachable.toList.length) := by
  cases hsink : (d.reachable.toList.map fun s => d.alphabet.toList.map fun c =>
      d.transition s c).any fun row => row.any Option.isNone with
  | false =>
      refine Or.inl ⟨?_, by simp [ofDfa, hsink], by simp [ofDfa, hsink, size]⟩
      simpa [Std.ExtTreeSet.mem_toList] using hsink
  | true =>
      refine Or.inr ⟨?_, by simp [ofDfa, hsink], by simp [ofDfa, hsink, size], ?_, ?_⟩
      · simpa [Std.ExtTreeSet.mem_toList] using hsink
      · simp [ofDfa, hsink, accepts, Array.getD_eq_getD_getElem?]
      · simp [ofDfa, hsink, Array.getD_eq_getD_getElem?]

/-- What holds of the sink, when there is one; this includes the missing edge that it was made
for. -/
theorem sink_ofDfa_some {z : Nat} (hz : (ofDfa d).sink = some z) :
    z = d.reachable.toList.length ∧ (ofDfa d).accepts z = false ∧
      (ofDfa d).delta.getD z #[] = Array.replicate d.alphabet.toList.length z ∧
      ∃ s ∈ d.reachable.toList, ∃ c ∈ d.alphabet, d.transition s c = none := by
  rcases sink_ofDfa d with ⟨-, hsink, -⟩ | ⟨hmissing, hsink, -, hacc, hrow⟩
  · rw [hsink] at hz
    cases hz
  · rw [hsink, Option.some.injEq] at hz
    subst hz
    exact ⟨rfl, hacc, hrow, hmissing⟩

theorem mem_toList_reachable (hpos : 0 < d.numStates) {s : Nat} :
    s ∈ d.reachable.toList ↔ ∃ w, d.run w = some s := by
  rw [Std.ExtTreeSet.mem_toList, d.mem_reachable hpos]

theorem step_ofDfa {i s a : Nat} {c : Char} (hi : d.reachable.toList[i]? = some s)
    (ha : d.alphabet.toList[a]? = some c) :
    (ofDfa d).step i a =
      match d.transition s c with
      | none => d.reachable.toList.length
      | some u => (Std.ExtTreeMap.ofList d.reachable.toList.zipIdx compare)[u]?.getD
          d.reachable.toList.length := by
  rw [step, delta_ofDfa hi]
  simp [Array.getD_eq_getD_getElem?, ha]

/-- An edge leads to the index of its target, which is reached as well and therefore has one. -/
theorem step_ofDfa_some (hpos : 0 < d.numStates) {i s a u : Nat} {c : Char}
    (hi : d.reachable.toList[i]? = some s) (ha : d.alphabet.toList[a]? = some c)
    (htr : d.transition s c = some u) :
    d.reachable.toList[(ofDfa d).step i a]? = some u := by
  obtain ⟨w, hw⟩ := (mem_toList_reachable hpos).1 (List.mem_of_getElem? hi)
  have hu : u ∈ d.reachable.toList :=
    (mem_toList_reachable hpos).2 ⟨w ++ [c], by rw [Dfa.run_concat, hw]; exact htr⟩
  obtain ⟨k, hk⟩ := List.mem_iff_getElem?.1 hu
  rw [step_ofDfa hi ha, htr]
  simp only [(getElem?_indices (nodup_toList _)).2 hk]
  exact hk

/-- A missing edge leads to the sink, which is the index behind all states. -/
theorem step_ofDfa_none {i s a : Nat} {c : Char} (hi : d.reachable.toList[i]? = some s)
    (ha : d.alphabet.toList[a]? = some c) (htr : d.transition s c = none) :
    (ofDfa d).sink = some ((ofDfa d).step i a) ∧
      (ofDfa d).size = d.reachable.toList.length + 1 ∧
      (ofDfa d).step i a = d.reachable.toList.length := by
  have hstep : (ofDfa d).step i a = d.reachable.toList.length := by
    rw [step_ofDfa hi ha, htr]
  have hc : c ∈ d.alphabet := Std.ExtTreeSet.mem_toList.1 (List.mem_of_getElem? ha)
  rcases sink_ofDfa d with ⟨hall, -⟩ | ⟨-, hsink, hsize, -⟩
  · exact absurd htr (hall s (List.mem_of_getElem? hi) c hc)
  · exact ⟨hstep ▸ hsink, hsize, hstep⟩

theorem start_ofDfa (hpos : 0 < d.numStates) :
    d.reachable.toList[(ofDfa d).start]? = some d.start := by
  obtain ⟨k, hk⟩ := List.mem_iff_getElem?.1 ((mem_toList_reachable hpos).2 ⟨[], rfl⟩)
  simp only [ofDfa, (getElem?_indices (nodup_toList _)).2 hk]
  exact hk

theorem size_ofDfa_cases (d : Dfa) :
    ((ofDfa d).sink = none ∧ (ofDfa d).size = d.reachable.toList.length) ∨
      ((ofDfa d).sink = some d.reachable.toList.length ∧
        (ofDfa d).size = d.reachable.toList.length + 1) := by
  rcases sink_ofDfa d with ⟨-, hsink, hsize⟩ | ⟨-, hsink, hsize, -⟩
  · exact Or.inl ⟨hsink, hsize⟩
  · exact Or.inr ⟨hsink, hsize⟩

/-- An index below the number of reached states stands for a state, and any other is the sink. -/
theorem index_ofDfa_cases {i : Nat} (hi : i < (ofDfa d).size) :
    (∃ s, d.reachable.toList[i]? = some s) ∨ (ofDfa d).sink = some i := by
  rcases Nat.lt_or_ge i d.reachable.toList.length with hlt | hge
  · exact Or.inl ⟨_, List.getElem?_eq_getElem hlt⟩
  · rcases size_ofDfa_cases d with ⟨-, hsize⟩ | ⟨hsink, hsize⟩
    · omega
    · obtain rfl : i = d.reachable.toList.length := by omega
      exact Or.inr hsink

theorem step_ofDfa_sink {z a : Nat} (hz : (ofDfa d).sink = some z)
    (ha : a < d.alphabet.toList.length) : (ofDfa d).step z a = z := by
  obtain ⟨-, -, hrow, -⟩ := sink_ofDfa_some hz
  rw [step, hrow, Array.getD_eq_getD_getElem?, Array.getElem?_replicate, if_pos ha]
  rfl

theorem accepts_ofDfa {i s : Nat} (hi : d.reachable.toList[i]? = some s) :
    (ofDfa d).accepts i = d.isAccepting s := by
  obtain ⟨hlt, rfl⟩ := List.getElem?_eq_some_iff.1 hi
  simp only [accepts, ofDfa, Array.getD_eq_getD_getElem?, List.getElem?_toArray]
  rw [List.getElem?_append_left (by simpa using hlt), List.getElem?_map,
    List.getElem?_eq_getElem hlt]
  rfl

/-- The table of an automaton stays within its bounds.  If there were no states, there would be no
index for the start. -/
theorem ofDfa_sound (hpos : 0 < d.numStates) : (ofDfa d).Sound := by
  have le_size : d.reachable.toList.length ≤ (ofDfa d).size := by
    rcases size_ofDfa_cases d with ⟨-, hsize⟩ | ⟨-, hsize⟩
    · omega
    · omega
  refine ⟨nodup_toList d.alphabet, ?_, fun i hi => ?_, fun i hi a ha => ?_⟩
  · have := (List.getElem?_eq_some_iff.1 (start_ofDfa hpos)).1
    omega
  · rcases index_ofDfa_cases hi with ⟨s, hs⟩ | hsink
    · rw [delta_ofDfa hs]
      simp [ofDfa]
    · obtain ⟨-, -, hrow, -⟩ := sink_ofDfa_some hsink
      rw [hrow]
      simp [ofDfa]
  · rcases index_ofDfa_cases hi with ⟨s, hs⟩ | hsink
    · have hc := List.getElem?_eq_getElem (show a < d.alphabet.toList.length from ha)
      cases htr : d.transition s d.alphabet.toList[a] with
      | some u =>
          have := (List.getElem?_eq_some_iff.1 (step_ofDfa_some hpos hs hc htr)).1
          omega
      | none =>
          obtain ⟨-, hsize, hstep⟩ := step_ofDfa_none hs hc htr
          omega
    · rwa [step_ofDfa_sink hsink ha]

/-- **The table of an automaton describes it.**  The automaton need not be well-formed, as only
what is reached is entered in the table. -/
theorem ofDfa_describes (hpos : 0 < d.numStates) : (ofDfa d).Describes d where
  sound := ofDfa_sound hpos
  symbols_eq := rfl
  start_eq := start_ofDfa hpos
  mem_originals _ := mem_toList_reachable hpos
  size_cases := size_ofDfa_cases d
  accepts_eq _ _ := accepts_ofDfa
  step_some _ _ _ _ _ := step_ofDfa_some hpos
  step_none _ _ _ _ hi ha htr := (step_ofDfa_none hi ha htr).1
  step_sink _ hz _ := step_ofDfa_sink hz
  not_accepts_sink _ hz := (sink_ofDfa_some hz).2.1
  exists_missing _ hz := (sink_ofDfa_some hz).2.2.2

namespace Describes

/-- Nothing is accepted from the sink, since it is never left. -/
theorem acceptsFrom_sink (h : t.Describes d) {z : Nat} (hz : t.sink = some z) (w : List Char) :
    t.acceptsFrom z w = false := by
  induction w with
  | nil => exact h.not_accepts_sink z hz
  | cons c w ih =>
      rw [acceptsFrom]
      cases hplace : t.symbols.idxOf? c with
      | none => rfl
      | some a =>
          have ha := (List.getElem?_eq_some_iff.1 (h.sound.idxOf?_eq_some_iff.1 hplace)).1
          simp only [h.step_sink z hz a ha]
          exact ih

/-- **An index accepts what its state accepts.**  Where the run gets stuck, the index moves to the
sink and the word is refused by both. -/
theorem acceptsFrom_eq (h : t.Describes d) (wf : d.WellFormed) {i s : Nat}
    (hi : t.originals[i]? = some s) (w : List Char) :
    t.acceptsFrom i w = d.acceptsFrom s w := by
  induction w generalizing i s with
  | nil => exact h.accepts_eq i s hi
  | cons c w ih =>
      rw [acceptsFrom, Dfa.acceptsFrom_cons]
      cases hplace : t.symbols.idxOf? c with
      | none =>
          have hc : c ∉ d.alphabet := by
            rw [List.idxOf?_eq_none_iff, h.symbols_eq, Std.ExtTreeSet.mem_toList] at hplace
            exact hplace
          cases htr : d.transition s c with
          | none => rfl
          | some u => exact absurd (wf.mem_alphabet htr) hc
      | some a =>
          have ha := h.sound.idxOf?_eq_some_iff.1 hplace
          cases htr : d.transition s c with
          | some u => exact ih (h.step_some i s a c u hi ha htr)
          | none => exact h.acceptsFrom_sink (h.step_none i s a c hi ha htr) w

theorem acceptsFrom_start (h : t.Describes d) (wf : d.WellFormed) (w : List Char) :
    t.acceptsFrom t.start w = d.accepts w :=
  h.acceptsFrom_eq wf h.start_eq w

theorem sink_lt (h : t.Describes d) {z : Nat} (hz : t.sink = some z) : z < t.size := by
  rcases h.size_cases with ⟨hnone, -⟩ | ⟨hsome, hsize⟩
  · rw [hnone] at hz
    cases hz
  · rw [hsome, Option.some.injEq] at hz
    omega

/-- Every index stands for a state that is reached or is the sink.  Facts about all indices are
proved by these two cases. -/
theorem index_cases (h : t.Describes d) {i : Nat} (hi : i < t.size) :
    (∃ s, t.originals[i]? = some s) ∨ t.sink = some i := by
  rcases h.size_cases with ⟨-, hsize⟩ | ⟨hsome, hsize⟩
  · exact Or.inl ⟨_, List.getElem?_eq_getElem (hsize ▸ hi)⟩
  · rcases Nat.lt_or_eq_of_le (Nat.le_of_lt_succ (hsize ▸ hi)) with hlt | rfl
    · exact Or.inl ⟨_, List.getElem?_eq_getElem hlt⟩
    · exact Or.inr hsome

theorem lt_size (h : t.Describes d) {i s : Nat} (hi : t.originals[i]? = some s) : i < t.size := by
  have hlt := (List.getElem?_eq_some_iff.1 hi).1
  rcases h.size_cases with ⟨-, hsize⟩ | ⟨-, hsize⟩ <;> omega

/-- The sink stands for no state, so no state is merged into it unless nothing is accepted from
it. -/
theorem ne_sink (h : t.Describes d) {i s : Nat} (hi : t.originals[i]? = some s) :
    t.sink ≠ some i := by
  have hlt := (List.getElem?_eq_some_iff.1 hi).1
  intro hsink
  rcases h.size_cases with ⟨hnone, -⟩ | ⟨hsome, -⟩
  · rw [hnone] at hsink
    cases hsink
  · rw [hsome, Option.some.injEq] at hsink
    omega

theorem start_ne_sink (h : t.Describes d) : t.sink ≠ some t.start :=
  h.ne_sink h.start_eq

end Describes

end Table

end PatternAutomata
