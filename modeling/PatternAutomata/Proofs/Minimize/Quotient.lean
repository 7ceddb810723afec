import PatternAutomata.Minimize.Quotient
import PatternAutomata.Proofs.Dfa.Chart
import PatternAutomata.Proofs.Error
import PatternAutomata.Proofs.Minimize.Refinement

/-!
# What minimization gives

The automaton of the blocks accepts the words of the automaton it was made from.  All its states
are reached, any two of them are told apart by a word, and they are numbered breadth first.
`Dfa.minimize_ok` says of every automaton with a state that it is minimized without failure, and
what comes out.

## The speaker of a block

A block is read through the index that speaks for it.  Since all indices of a block accept the
same words, so do those they move to, and it does not matter which of them speaks.
`Quotient.words` are the words of the speaker, and `Quotient.Fits.words_numberOf` says that they
are those of every index.  From there on blocks are points of a system like any other, and the
theorems about surveys and charts apply to them (`Quotient.Fits.toDfa_charted`).

## The block that is left out

The sink stands for the missing edges, and its block holds it alone unless some state that is
reached accepts nothing.  If it is alone, its block is left out, and the edges into it with it;
nothing is accepted from it, so no word is lost.  Otherwise the block stays for the sake of the
dead state.  Either way the words of every block that is met are those of its speaker.

## What is kept in mind of a minimal automaton

`Dfa.Minimized` collects what is true of the result, and `Quotient.Minimizes` how it came about.
The latter is for what depends on blocks, such as the mapping and the order in which edges are
filed; everything else is derived from the former.
-/

namespace PatternAutomata

namespace Quotient

variable {q : Quotient} {d : Dfa}

/-- The table describes an automaton, and the blocks are those of the indices from which the same
words are accepted.  How the partition was refined to get there is of no importance afterwards. -/
structure Fits (q : Quotient) (d : Dfa) : Prop where
  describes : q.table.Describes d
  valid : q.partition.Valid q.table.size
  alike_iff : ∀ i j, i < q.table.size → j < q.table.size →
    (q.partition.numberOf i = q.partition.numberOf j ↔ q.table.Alike i j)

theorem fits_refine (hpos : 0 < d.numStates) :
    Fits ⟨Table.ofDfa d, Partition.refine (Table.ofDfa d)⟩ d := by
  have describes := Table.ofDfa_describes hpos
  obtain ⟨valid, alike_iff⟩ := Partition.refine_spec describes.sound
  exact ⟨describes, valid, alike_iff⟩

/-- The words accepted from a block are those accepted from its speaker. -/
def words (q : Quotient) (block : Nat) (w : List Char) : Bool :=
  q.table.acceptsFrom (q.speaker block) w

/-- The blocks that are not left out.  Blocks that are met are kept, but a block that is kept need
not be met. -/
def Kept (q : Quotient) (block : Nat) : Prop :=
  block < q.partition.blocks.size ∧ q.dropped? ≠ some block

namespace Fits

/-! ### Blocks and their speakers -/

theorem speaker_spec (fits : q.Fits d) {b : Nat} (hb : b < q.partition.blocks.size) :
    q.speaker b < q.table.size ∧ q.partition.numberOf (q.speaker b) = b := by
  obtain ⟨i, hi⟩ := fits.valid.nonempty b hb
  obtain ⟨least, hleast⟩ := Option.isSome_iff_exists.1 (Std.ExtTreeSet.isSome_min?_of_mem hi)
  have hmem : q.speaker b ∈ q.partition.block b := by
    rw [speaker, hleast]
    exact Std.ExtTreeSet.min?_mem hleast
  obtain ⟨hlt, -, hnum⟩ := (fits.valid.mem_block b _).1 hmem
  exact ⟨hlt, hnum⟩

/-- From every index of a block the words of the block are accepted, not only from the one that
speaks for it. -/
theorem words_numberOf (fits : q.Fits d) {i : Nat} (hi : i < q.table.size) (w : List Char) :
    q.words (q.partition.numberOf i) w = q.table.acceptsFrom i w := by
  obtain ⟨hlt, hnum⟩ := fits.speaker_spec (fits.valid.number_lt i hi)
  exact (fits.alike_iff _ _ hlt hi).1 hnum w

/-- The block that is left out holds nothing but the sink, so that no state is left out with it. -/
theorem eq_sink_of_dropped (fits : q.Fits d) {i : Nat} (hi : i < q.table.size)
    (h : q.dropped? = some (q.partition.numberOf i)) : q.table.sink = some i := by
  unfold dropped? at h
  cases hsink : q.table.sink with
  | none =>
      rw [hsink] at h
      cases h
  | some z =>
      rw [hsink] at h
      simp only at h
      split at h
      · rename_i hone
        rw [Option.some.injEq] at h
        have hz := fits.describes.sink_lt hsink
        -- the block has one member only, and that is the sink
        have mem : ∀ j, j < q.table.size → q.partition.numberOf j = q.partition.numberOf z →
            j ∈ q.partition.block (q.partition.numberOf z) := fun j hj hnum =>
          (fits.valid.mem_block _ j).2 ⟨hj, fits.valid.number_lt z hz, hnum⟩
        have hmem := Partition.mem_of_size_le (a := StateSet.singleton z)
          (b := q.partition.block (q.partition.numberOf z))
          (fun j hj => by
            rw [StateSet.mem_singleton.1 hj]
            exact mem z hz rfl)
          (by
            rw [hone, StateSet.singleton]
            simp [Std.ExtTreeSet.size_insert])
          (mem i hi h.symm)
        rw [StateSet.mem_singleton.1 hmem]
      · cases h

/-- The sink alone in its block is left out.  This is the converse, and it is needed to show that
edges which were missing stay missing. -/
theorem dropped_of_alone (fits : q.Fits d) {z : Nat} (hz : q.table.sink = some z)
    (alone : ∀ i, i < q.table.size → q.partition.numberOf i = q.partition.numberOf z → i = z) :
    q.dropped? = some (q.partition.numberOf z) := by
  have hlt := fits.describes.sink_lt hz
  have block : q.partition.block (q.partition.numberOf z) = StateSet.singleton z := by
    ext i
    rw [fits.valid.mem_block, StateSet.mem_singleton]
    constructor
    · rintro ⟨hi, -, hnum⟩
      exact alone i hi hnum
    · rintro rfl
      exact ⟨hlt, fits.valid.number_lt i hlt, rfl⟩
  unfold dropped?
  rw [hz]
  simp only [block]
  rw [if_pos (by simp [StateSet.singleton, Std.ExtTreeSet.size_insert])]

/-- No block is left out if from a state that is reached nothing is accepted, for such a state is
in the block of the sink. -/
theorem dropped?_eq_none_of_dead (fits : q.Fits d) (wf : d.WellFormed) {w : List Char} {s : Nat}
    (hw : d.run w = some s) (dead : ∀ v, d.acceptsFrom s v = false) : q.dropped? = none := by
  obtain ⟨i, hi⟩ := List.mem_iff_getElem?.1 ((fits.describes.mem_originals s).2 ⟨w, hw⟩)
  have hlt := fits.describes.lt_size hi
  refine Option.eq_none_iff_forall_ne_some.2 fun b hb => ?_
  obtain ⟨z, hz⟩ : ∃ z, q.table.sink = some z ∧ b = q.partition.numberOf z := by
    unfold dropped? at hb
    cases hsink : q.table.sink with
    | none =>
        rw [hsink] at hb
        cases hb
    | some z =>
        simp only [hsink] at hb
        split at hb
        · exact ⟨z, rfl, (Option.some.inj hb).symm⟩
        · cases hb
  have halike : q.table.Alike i z := fun v => by
    rw [fits.describes.acceptsFrom_eq wf hi, dead, fits.describes.acceptsFrom_sink hz.1]
  have hnum := (fits.alike_iff i z hlt (fits.describes.sink_lt hz.1)).2 halike
  rw [hz.2, ← hnum] at hb
  exact fits.describes.ne_sink hi (fits.eq_sink_of_dropped hlt hb)

/-- Nothing is dropped if there is no sink, that is, if no edge was missing. -/
theorem dropped?_eq_none (h : q.table.sink = none) : q.dropped? = none := by
  unfold dropped?
  rw [h]

theorem kept_start (fits : q.Fits d) : q.Kept q.system.start := by
  have hlt := fits.describes.sound.start_lt
  exact ⟨fits.valid.number_lt _ hlt, fun h =>
    fits.describes.start_ne_sink (fits.eq_sink_of_dropped hlt h)⟩

/-- The edges of a block are those of its speaker, without those into the block that is left out. -/
theorem mem_edges (fits : q.Fits d) {b next : Nat} (hb : b < q.partition.blocks.size)
    {c : Char} : (c, next) ∈ q.system.edges b ↔
      ∃ a, q.table.symbols[a]? = some c ∧
        next = q.partition.numberOf (q.table.step (q.speaker b) a) ∧ q.dropped? ≠ some next := by
  have hrow := fits.describes.sound.row_size _ (fits.speaker_spec hb).1
  simp only [system, List.mem_filterMap, Prod.exists]
  constructor
  · rintro ⟨c', target, hmem, h⟩
    obtain ⟨a, ha⟩ := List.mem_iff_getElem?.1 hmem
    obtain ⟨hc, htarget⟩ := List.getElem?_zip_eq_some.1 ha
    have hstep : q.table.step (q.speaker b) a = target := by
      rw [Array.getElem?_toList] at htarget
      rw [Table.step, Array.getD_eq_getD_getElem?, htarget]
      rfl
    split at h
    · cases h
    · rename_i hkept
      cases h
      exact ⟨a, hc, by rw [hstep], hkept⟩
  · rintro ⟨a, hc, rfl, hkept⟩
    have ha := (List.getElem?_eq_some_iff.1 hc).1
    refine ⟨c, q.table.step (q.speaker b) a, List.mem_iff_getElem?.2 ⟨a, ?_⟩, if_neg hkept⟩
    rw [List.getElem?_zip_eq_some, Table.step]
    generalize q.table.delta.getD (q.speaker b) #[] = row at hrow
    refine ⟨hc, ?_⟩
    rw [Array.getElem?_toList, Array.getD_eq_getD_getElem?,
      Array.getElem?_eq_getElem (hrow ▸ ha)]
    rfl

theorem kept_of_edge (fits : q.Fits d) {b next : Nat} (hb : b < q.partition.blocks.size)
    {c : Char} (h : (c, next) ∈ q.system.edges b) : q.Kept next := by
  obtain ⟨a, hc, rfl, hkept⟩ := (fits.mem_edges hb).1 h
  have ha := (List.getElem?_eq_some_iff.1 hc).1
  exact ⟨fits.valid.number_lt _
    (fits.describes.sound.step_lt _ (fits.speaker_spec hb).1 a ha), hkept⟩

/-- Blocks that are left out are never met, since no edge leads to them and the start is not one
of them. -/
theorem kept_of_reachable (fits : q.Fits d) {b : Nat} (h : q.system.Reachable b) :
    q.Kept b := by
  induction h with
  | refl => exact fits.kept_start
  | tail _ edge ih =>
      obtain ⟨c, hc⟩ := edge
      exact fits.kept_of_edge ih.1 hc

/-- The edges of a block are in the order of their symbols, and so there is one at most for each
symbol. -/
theorem edges_sorted (fits : q.Fits d) {b : Nat} (hb : b < q.partition.blocks.size) :
    (q.system.edges b).Pairwise fun e e' => e.1 < e'.1 := by
  have ascending : (q.table.symbols.zip (q.table.delta.getD (q.speaker b) #[]).toList).Pairwise
      fun e e' => e.1 < e'.1 := by
    have symbols : q.table.symbols.Pairwise (· < ·) := by
      rw [fits.describes.symbols_eq]
      exact d.alphabet.pairwise_toList
    have firsts : ((q.table.symbols.zip (q.table.delta.getD (q.speaker b) #[]).toList).map
        Prod.fst).Pairwise (· < ·) := by
      rwa [List.map_fst_zip]
      rw [Array.length_toList, fits.describes.sound.row_size _ (fits.speaker_spec hb).1]
    exact List.pairwise_map.1 firsts
  refine TransitionSystem.sorted_filterMap (fun x e h => ?_) ascending
  obtain ⟨c, target⟩ := x
  simp only at h
  split at h
  · cases h
  · cases h
    rfl

/-! ### Words of blocks -/

/-- The words of a block follow its edges.  The block that an edge leads to is that of some index,
and any other index of it would do. -/
theorem words_cons (fits : q.Fits d) {b next : Nat} (hb : b < q.partition.blocks.size) {c : Char}
    (h : (c, next) ∈ q.system.edges b) (w : List Char) :
    q.words b (c :: w) = q.words next w := by
  obtain ⟨a, hc, rfl, -⟩ := (fits.mem_edges hb).1 h
  have hstep := fits.describes.sound.step_lt _ (fits.speaker_spec hb).1 a
    (List.getElem?_eq_some_iff.1 hc).1
  rw [fits.words_numberOf hstep, words, fits.describes.sound.acceptsFrom_cons hc]

/-- A block has no words under a symbol under which it has no edge.  Either the symbol is not in
the alphabet, or the edge was into the block that is left out, where nothing is accepted. -/
theorem words_stuck (fits : q.Fits d) {b : Nat} (hb : b < q.partition.blocks.size) {c : Char}
    (stuck : ∀ next, (c, next) ∉ q.system.edges b) (w : List Char) :
    q.words b (c :: w) = false := by
  rw [words, Table.acceptsFrom]
  cases hplace : q.table.symbols.idxOf? c with
  | none => rfl
  | some a =>
      have hc := fits.describes.sound.idxOf?_eq_some_iff.1 hplace
      have hstep := fits.describes.sound.step_lt _ (fits.speaker_spec hb).1 a
        (List.getElem?_eq_some_iff.1 hc).1
      have hdropped : q.dropped? =
          some (q.partition.numberOf (q.table.step (q.speaker b) a)) := by
        by_contra hkept
        exact stuck _ ((fits.mem_edges hb).2 ⟨a, hc, rfl, hkept⟩)
      exact fits.describes.acceptsFrom_sink (fits.eq_sink_of_dropped hstep hdropped) w

theorem ascending (fits : q.Fits d) : q.system.Ascending (.ofList q.table.symbols) where
  mem_alphabet b hb c next he := by
    obtain ⟨a, hc, -⟩ := (fits.mem_edges (fits.kept_of_reachable hb).1).1 he
    exact Alphabet.mem_ofList.2 (List.mem_of_getElem? hc)
  sorted b hb := fits.edges_sorted (fits.kept_of_reachable hb).1

theorem follows (fits : q.Fits d) : q.system.Follows (fun b => q.words b []) q.words where
  nil _ _ := rfl
  cons _ hb _ _ w he := fits.words_cons (fits.kept_of_reachable hb).1 he w
  stuck _ hb _ w stuck := fits.words_stuck (fits.kept_of_reachable hb).1 stuck w

/-- All indices of a block accept or none does, so the check of this passes. -/
theorem blockAccepts_eq (fits : q.Fits d) {b : Nat} (hb : b < q.partition.blocks.size) :
    q.blockAccepts b = .ok (q.words b []) := by
  obtain ⟨hlt, hnum⟩ := fits.speaker_spec hb
  unfold blockAccepts
  refine if_pos (List.all_eq_true.2 fun i hi => beq_iff_eq.2 ?_)
  obtain ⟨hi, -, hnum'⟩ := (fits.valid.mem_block b i).1 (Std.ExtTreeSet.mem_toList.1 hi)
  exact (fits.alike_iff i _ hi hlt).1 (hnum'.trans hnum.symm) []

end Fits

end Quotient

/-- `m` is the minimal automaton made from `d`.  The last two fields say that minimization neither
makes gaps where there were none nor dead states where there were none; in general it may close
gaps. -/
structure Dfa.Minimized (d m : Dfa) : Prop where
  built : m.Built
  pos : 0 < m.numStates
  start_eq : m.start = 0
  alphabet_eq : m.alphabet = d.alphabet
  accepts_eq : ∀ w, m.accepts w = d.accepts w
  accessible : m.Accessible
  reduced : m.Reduced
  breadthFirst : m.BreadthFirst
  total : d.FullWhereReached → m.Total
  live : d.LiveWhereReached → m.LiveWhereReached

/-- Nothing is left to choice in a minimal automaton, since it is reached, reduced and numbered
breadth first. -/
theorem Dfa.Minimized.canonical {d m : Dfa} (h : d.Minimized m) : m.Canonical :=
  ⟨h.built, h.pos, h.start_eq, h.accessible, h.reduced, h.breadthFirst⟩

namespace Quotient.Fits

variable {q : Quotient} {d : Dfa}

theorem mapM_blockAccepts (fits : q.Fits d) {blocks : List Nat}
    (h : ∀ b ∈ blocks, b < q.partition.blocks.size) :
    blocks.mapM q.blockAccepts = .ok (blocks.map fun b => q.words b []) := by
  induction blocks with
  | nil => rfl
  | cons b blocks ih =>
      rw [List.mapM_cons, fits.blockAccepts_eq (h b List.mem_cons_self), Error.ok_bind,
        ih fun b' hb' => h b' (List.mem_cons_of_mem _ hb')]
      rfl

/-- Two blocks do not have the same words, as their indices would have been in one block. -/
theorem exists_words_ne (fits : q.Fits d) {b b' : Nat} (hb : b < q.partition.blocks.size)
    (hb' : b' < q.partition.blocks.size) (hne : b ≠ b') :
    ∃ w, q.words b w ≠ q.words b' w := by
  obtain ⟨hlt, hnum⟩ := fits.speaker_spec hb
  obtain ⟨hlt', hnum'⟩ := fits.speaker_spec hb'
  by_contra hnone
  refine hne (hnum ▸ hnum' ▸ (fits.alike_iff _ _ hlt hlt').2 fun w => ?_)
  by_contra hdiff
  exact hnone ⟨w, hdiff⟩

/-- If no edge is missing from a state that is reached, there is no sink.  Edges that are missing
elsewhere are not in the table. -/
theorem sink_eq_none (fits : q.Fits d) (full : d.FullWhereReached) : q.table.sink = none := by
  refine Option.eq_none_iff_forall_ne_some.2 fun z hz => ?_
  obtain ⟨r, hr, c, hc, hnone⟩ := fits.describes.exists_missing z hz
  obtain ⟨w, hw⟩ := (fits.describes.mem_originals r).1 hr
  obtain ⟨u, hu⟩ := full w r hw c hc
  rw [hu] at hnone
  cases hnone

/-- If a word is accepted from every state that is reached, every block that is kept has a word:
nothing but the sink has none, and its block is left out. -/
theorem exists_word_of_kept (fits : q.Fits d) (wf : d.WellFormed) (live : d.LiveWhereReached)
    {b : Nat} (kept : q.Kept b) : ∃ w, q.words b w = true := by
  have word_of : ∀ {i s : Nat}, q.table.originals[i]? = some s →
      ∃ w, q.table.acceptsFrom i w = true := by
    intro i s hs
    obtain ⟨w, hw⟩ := (fits.describes.mem_originals s).1 (List.mem_of_getElem? hs)
    obtain ⟨v, hv⟩ := live w s hw
    exact ⟨v, (fits.describes.acceptsFrom_eq wf hs v).trans hv⟩
  obtain ⟨hlt, hnum⟩ := fits.speaker_spec kept.1
  rcases fits.describes.index_cases hlt with ⟨s, hs⟩ | hsink
  · exact word_of hs
  · refine absurd ?_ kept.2
    rw [← hnum]
    refine fits.dropped_of_alone hsink fun i hi halike => ?_
    rcases fits.describes.index_cases hi with ⟨s, hs⟩ | hsink'
    · obtain ⟨w, hw⟩ := word_of hs
      rw [(fits.alike_iff i _ hi hlt).1 halike w, fits.describes.acceptsFrom_sink hsink] at hw
      cases hw
    · exact Option.some.inj (hsink'.symm.trans hsink)

/-- There are not more blocks to meet than there are blocks, so the limit of the survey is not
exceeded. -/
theorem length_le (fits : q.Fits d) {points : List Nat} (nodup : points.Nodup)
    (reachable : ∀ b ∈ points, q.system.Reachable b) :
    points.length ≤ q.partition.blocks.size := by
  have sub : points ⊆ List.range q.partition.blocks.size := fun b hb =>
    List.mem_range.2 (fits.kept_of_reachable (reachable b hb)).1
  simpa using (nodup.subperm sub).length_le

section Chart

variable {m : Dfa} {survey : Survey Nat}

theorem kept_of_found (fits : q.Fits d) (done : q.system.Surveyed survey) {s b : Nat}
    (hb : survey.found[s]? = some b) : q.Kept b :=
  fits.kept_of_reachable (done.reachable s b hb)

theorem lt_of_mem_found (fits : q.Fits d) (done : q.system.Surveyed survey) {b : Nat}
    (hb : b ∈ survey.found.toList) : b < q.partition.blocks.size := by
  obtain ⟨i, hi⟩ := List.mem_iff_getElem?.1 hb
  rw [Array.getElem?_toList] at hi
  exact (fits.kept_of_found done hi).1

/-- Two states stand for two blocks, and two blocks do not accept the same words. -/
theorem reduced_of_charted (fits : q.Fits d) (done : q.system.Surveyed survey)
    (chart : q.system.Charted survey (.ofList q.table.symbols) (fun b => q.words b []) m) :
    m.Reduced := by
  intro s t hs ht hne
  rw [chart.numStates_eq] at hs ht
  have hb := Array.getElem?_eq_getElem hs
  have hb' := Array.getElem?_eq_getElem ht
  have hblocks : survey.found[s] ≠ survey.found[t] := fun heq =>
    hne (done.filed.unique hb (heq ▸ hb'))
  obtain ⟨w, hw⟩ := fits.exists_words_ne (fits.kept_of_found done hb).1
    (fits.kept_of_found done hb').1 hblocks
  refine ⟨w, ?_⟩
  rw [Dfa.Separates, chart.acceptsFrom_eq done fits.follows hb,
    chart.acceptsFrom_eq done fits.follows hb']
  exact hw

/-- If no block is left out, no edge is missing, since a row of the table has an entry for every
symbol. -/
theorem total_of_dropped?_eq_none (fits : q.Fits d) (done : q.system.Surveyed survey)
    (chart : q.system.Charted survey (.ofList q.table.symbols) (fun b => q.words b []) m)
    (kept : q.dropped? = none) : m.Total := by
  intro s hs c hc
  rw [chart.numStates_eq] at hs
  have hb := Array.getElem?_eq_getElem hs
  rw [chart.alphabet_eq, Alphabet.mem_ofList] at hc
  obtain ⟨a, ha⟩ := List.mem_iff_getElem?.1 hc
  have he := (fits.mem_edges (fits.kept_of_found done hb).1).2
    ⟨a, ha, rfl, by rw [kept]; nofun⟩
  obtain ⟨row, -, hnumbered⟩ := done.row_of_found hb
  obtain ⟨t, ht, -⟩ := hnumbered.exists_number he
  exact ⟨t, (chart.transition_iff s c t).2 ⟨_, _, hb, ht, he⟩⟩

/-- If no edge is missing from a state that is reached, there is no sink and no block is left
out. -/
theorem total_of_charted (fits : q.Fits d) (done : q.system.Surveyed survey)
    (chart : q.system.Charted survey (.ofList q.table.symbols) (fun b => q.words b []) m)
    (full : d.FullWhereReached) : m.Total :=
  fits.total_of_dropped?_eq_none done chart (dropped?_eq_none (fits.sink_eq_none full))

theorem live_of_charted (fits : q.Fits d) (wf : d.WellFormed) (done : q.system.Surveyed survey)
    (chart : q.system.Charted survey (.ofList q.table.symbols) (fun b => q.words b []) m)
    (live : d.LiveWhereReached) : m.LiveWhereReached := by
  intro w s hw
  have hs := chart.built.wellFormed.run_lt (chart.pos done) hw
  rw [chart.numStates_eq] at hs
  have hb := Array.getElem?_eq_getElem hs
  obtain ⟨v, hv⟩ := fits.exists_word_of_kept wf live (fits.kept_of_found done hb)
  exact ⟨v, (chart.acceptsFrom_eq done fits.follows hb v).trans hv⟩

end Chart

/-- **The blocks can be surveyed and laid out**, one state for each that is met.  The survey is
given along with the automaton, as the mapping and the files refer to it. -/
theorem toDfa_charted (fits : q.Fits d) :
    ∃ survey m, q.toDfa = .ok (m, survey.found.toList) ∧ q.system.Surveyed survey ∧
      Dfa.ofRows (.ofList q.table.symbols)
        ((survey.found.toList.map fun b => q.words b []).zip survey.rows.toList) = .ok m ∧
      q.system.Charted survey (.ofList q.table.symbols) (fun b => q.words b []) m := by
  have hkey : Function.Injective q.system.key := fun a b h => (List.cons.inj h).1
  rcases TransitionSystem.survey_spec hkey q.partition.blocks.size with
    ⟨survey, hsurvey, done, -⟩ | ⟨-, points, nodup, hmany, hpoints⟩
  · obtain ⟨m, hok, chart⟩ := done.chart_ok fits.ascending fun b => q.words b []
    refine ⟨survey, m, ?_, done, hok, chart⟩
    unfold toDfa
    rw [hsurvey]
    simp only [fits.mapM_blockAccepts fun b => fits.lt_of_mem_found done, Error.ok_bind, hok]
    rfl
  · exact absurd hmany (Nat.not_lt_of_le (fits.length_le nodup hpoints))

/-- The symbols of the table are those of the automaton, whether or not some edge carries them. -/
theorem ofList_symbols (fits : q.Fits d) : Alphabet.ofList q.table.symbols = d.alphabet := by
  rw [fits.describes.symbols_eq]
  ext c
  rw [Alphabet.mem_ofList, Std.ExtTreeSet.mem_toList]

/-- **The automaton of the blocks** is the minimal automaton, before it is said what its states
stand for. -/
theorem minimized_of_charted (fits : q.Fits d) (wf : d.WellFormed) {m : Dfa} {survey : Survey Nat}
    (done : q.system.Surveyed survey)
    (chart : q.system.Charted survey (.ofList q.table.symbols) (fun b => q.words b []) m) :
    d.Minimized m where
  built := chart.built
  pos := chart.pos done
  start_eq := chart.start_eq
  alphabet_eq := chart.alphabet_eq.trans fits.ofList_symbols
  accepts_eq w := by
    rw [chart.accepts_eq done fits.follows, ← fits.describes.acceptsFrom_start wf]
    exact fits.words_numberOf fits.describes.sound.start_lt w
  accessible := chart.accessible
  reduced := fits.reduced_of_charted done chart
  breadthFirst := chart.breadthFirst
  total := fits.total_of_charted done chart
  live := fits.live_of_charted wf done chart

end Quotient.Fits

/-- What the states stand for has no bearing on minimality, so the mapping may be any. -/
theorem Dfa.Minimized.setMapping {d m : Dfa} (h : d.Minimized m)
    (mapping : Std.ExtTreeMap Nat (List Nat)) : d.Minimized (m.setMapping mapping) where
  built := h.built.setMapping mapping
  pos := h.pos
  start_eq := h.start_eq
  alphabet_eq := h.alphabet_eq
  accepts_eq w := (m.accepts_setMapping mapping w).trans (h.accepts_eq w)
  accessible s hs := by
    obtain ⟨w, hw⟩ := h.accessible s hs
    exact ⟨w, (m.run_setMapping mapping w).trans hw⟩
  reduced s t hs ht hne := by
    obtain ⟨w, hw⟩ := h.reduced s t hs ht hne
    refine ⟨w, ?_⟩
    rwa [Dfa.Separates, Dfa.acceptsFrom_setMapping, Dfa.acceptsFrom_setMapping]
  breadthFirst s t hst w hw := by
    rw [Dfa.run_setMapping] at hw
    obtain ⟨v, hv, hvw⟩ := h.breadthFirst s t hst w hw
    exact ⟨v, (m.run_setMapping mapping v).trans hv, hvw⟩
  total := h.total
  live live w s hw := by
    rw [Dfa.run_setMapping] at hw
    obtain ⟨v, hv⟩ := h.live live w s hw
    exact ⟨v, (m.acceptsFrom_setMapping mapping s v).trans hv⟩

/-- `q.Minimizes survey bare d m`: the blocks of `d` were surveyed and laid out as `bare`, and `m`
is `bare` together with what its states stand for. -/
structure Quotient.Minimizes (q : Quotient) (survey : Survey Nat) (bare d m : Dfa) : Prop where
  fits : q.Fits d
  done : q.system.Surveyed survey
  rows_ok : Dfa.ofRows (.ofList q.table.symbols)
    ((survey.found.toList.map fun b => q.words b []).zip survey.rows.toList) = .ok bare
  chart : q.system.Charted survey (.ofList q.table.symbols) (fun b => q.words b []) bare
  eq : m = { bare with
    mapping := d.mapping.map fun mapping => q.mergedMapping mapping survey.found.toList }

theorem Quotient.Minimizes.minimized {q : Quotient} {survey : Survey Nat} {bare d m : Dfa}
    (h : q.Minimizes survey bare d m) (wf : d.WellFormed) : d.Minimized m := by
  have minimized := h.fits.minimized_of_charted wf h.done h.chart
  rw [h.eq]
  cases d.mapping with
  | none => rwa [Option.map_none, ← h.chart.mapping_eq]
  | some mapping => exact minimized.setMapping _

namespace Dfa

variable {d m : Dfa}

/-- An automaton with several states and with symbols is minimized by way of its blocks.  It need
not be well-formed for that. -/
theorem exists_minimizes (several : 2 ≤ d.numStates) (symbols : d.alphabet ≠ ∅) :
    ∃ (q : Quotient) (survey : Survey Nat) (bare m : Dfa),
      d.minimize = .ok m ∧ q.Minimizes survey bare d m := by
  have fits := Quotient.fits_refine (Nat.lt_of_succ_lt several)
  obtain ⟨survey, bare, hok, done, rows_ok, chart⟩ := fits.toDfa_charted
  refine ⟨_, survey, bare, _, ?_, fits, done, rows_ok, chart, rfl⟩
  have large : ¬ (d.numStates ≤ 1 ∨ d.alphabet.isEmpty = true) := by
    rintro (h | h)
    · omega
    · exact symbols (Std.ExtTreeSet.isEmpty_iff.1 h)
  unfold minimize
  rw [if_neg large]
  simp only [hok, Error.ok_bind]
  cases d.mapping with
  | none => exact congrArg Except.ok (show bare = { bare with mapping := none } by
      rw [← chart.mapping_eq])
  | some mapping => rfl

/-- An automaton with one state or without symbols stays as it is, and so does one without
states. -/
theorem minimize_of_small (h : d.numStates ≤ 1 ∨ d.alphabet = ∅) : d.minimize = .ok d :=
  if_pos (h.imp_right Std.ExtTreeSet.isEmpty_iff.2)

/-- **Minimization succeeds.**  An automaton with one state or without symbols stays as it is; of
any other the minimal automaton is made. -/
theorem minimize_spec (hb : d.Built) (hpos : 0 < d.numStates) :
    ((d.numStates = 1 ∨ d.alphabet = ∅) ∧ d.minimize = .ok d) ∨
      ∃ m, d.minimize = .ok m ∧ d.Minimized m := by
  by_cases hsmall : d.numStates = 1 ∨ d.alphabet = ∅
  · exact .inl ⟨hsmall, minimize_of_small (hsmall.imp_left Nat.le_of_eq)⟩
  · obtain ⟨hstates, hsymbols⟩ := not_or.1 hsmall
    obtain ⟨q, survey, bare, m, hok, h⟩ := exists_minimizes (d := d) (by omega) hsymbols
    exact .inr ⟨m, hok, h.minimized hb.wellFormed⟩

/-- An automaton with one state is canonical, although it has not been made by minimization. -/
theorem canonical_of_numStates_eq_one (hb : d.Built) (h : d.numStates = 1) : d.Canonical := by
  have wf := hb.wellFormed
  have hstart : d.start = 0 := by
    have := wf.start_lt (by omega)
    omega
  refine ⟨hb, by omega, hstart, fun s hs => ⟨[], ?_⟩, fun s t hs ht hne => ?_,
    fun s t hst w hw => ?_⟩
  · rw [run_nil, hstart]
    exact congrArg some (show 0 = s by omega)
  · omega
  · have := wf.run_lt (by omega) hw
    omega

/-- **Minimizing a complete automaton whose states are all reached** gives a complete and
canonical automaton for the same words over the same alphabet.  The hypotheses also cover the
small automata that are not touched: they are canonical if they are complete and reached. -/
theorem minimize_canonical (hb : d.Built) (hpos : 0 < d.numStates) (total : d.Total)
    (accessible : d.Accessible) :
    ∃ m, d.minimize = .ok m ∧ m.Canonical ∧ m.Total ∧ m.alphabet = d.alphabet ∧
      ∀ w, m.accepts w = d.accepts w := by
  rcases minimize_spec hb hpos with ⟨hsmall, hok⟩ | ⟨m, hok, h⟩
  · have hone : d.numStates = 1 :=
      hsmall.elim id (accessible.numStates_eq_one hb.wellFormed hpos)
    exact ⟨d, hok, canonical_of_numStates_eq_one hb hone, total, rfl, fun _ => rfl⟩
  · exact ⟨m, hok, h.canonical, h.total fun _ s hw => total s (hb.wellFormed.run_lt hpos hw),
      h.alphabet_eq, h.accepts_eq⟩

/-- **Minimization keeps the language and leaves nothing superfluous**, whatever automaton it is
given: one with edges missing, with states that are not reached or from which nothing is accepted,
or with symbols that no edge carries.  Without symbols, states that are not reached are left where
they are, and so the last part asks for one. -/
theorem minimize_ok (hb : d.Built) (hpos : 0 < d.numStates) :
    ∃ m, d.minimize = .ok m ∧ m.alphabet = d.alphabet ∧ (∀ w, m.accepts w = d.accepts w) ∧
      (d.alphabet ≠ ∅ →
        (∀ s, s < m.numStates → ∃ w, m.run w = some s) ∧
        ∀ s t, s < m.numStates → t < m.numStates → s ≠ t →
          ∃ w, m.acceptsFrom s w ≠ m.acceptsFrom t w) := by
  rcases minimize_spec hb hpos with ⟨hsmall, hok⟩ | ⟨m, hok, h⟩
  · refine ⟨d, hok, rfl, fun _ => rfl, fun hne => ?_⟩
    have canonical := canonical_of_numStates_eq_one hb (hsmall.resolve_right hne)
    exact ⟨canonical.accessible, canonical.reduced⟩
  · exact ⟨m, hok, h.alphabet_eq, h.accepts_eq, fun _ => ⟨h.accessible, h.reduced⟩⟩

/-- An automaton with a state that is not reached and a symbol without edges, of which one state
remains. -/
theorem minimize_ok_of_unreached :
    let d := (((withAlphabet (.ofList ['a', 'b'])).addState false).addState true).file 1 'a' 0
    d.Built ∧ 0 < d.numStates ∧
      ∃ m, d.minimize = .ok m ∧ m.alphabet = d.alphabet ∧ (∀ w, m.accepts w = d.accepts w) ∧
        (d.alphabet ≠ ∅ →
          (∀ s, s < m.numStates → ∃ w, m.run w = some s) ∧
          ∀ s t, s < m.numStates → t < m.numStates → s ≠ t →
            ∃ w, m.acceptsFrom s w ≠ m.acceptsFrom t w) := by
  intro d
  have hadd : ((withAlphabet (.ofList ['a', 'b'])).addState false |>.addState true).addTransition
      1 'a' 0 = .ok d := rfl
  have hb : d.Built :=
    (((Built.withAlphabet (.ofList ['a', 'b'])).addState false).addState true).addTransition hadd
  have hpos : 0 < d.numStates := Nat.two_pos
  exact ⟨hb, hpos, minimize_ok hb hpos⟩

end Dfa

end PatternAutomata
