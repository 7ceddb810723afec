import PatternAutomata.Proofs.Guarded.Partition
import PatternAutomata.Proofs.Minimize.Quotient

/-!
# Guarded minimization

The automaton of the blocks is put together in two passes: the blocks are numbered, and then the
edges between them are looked up under these numbers.  No block is without an index that speaks
for it, and none that an edge leads to is without a number.  `Guarded.minimize_eq` puts everything
together: no lookup of minimization fails.

## The first pass

Edges are looked up in the course of a survey, and those of an arbitrary number could not be.  A
survey asks for the edges of points that can be met and of no others (`Guarded.settle_eq`), and
all of these are blocks.  So the guarded edges have to agree with the unguarded ones on such
points only.

## The second pass

By then every block that is met has a number, and the blocks that edges lead to are met.
`Guarded.rowOf_eq` follows the row that the first pass has made: each edge was numbered there, so
the number is found again.  The breach that would report a block without number is never reached.

## Agreement within a block

Whether a block accepts is asked of all its indices, and of the one that speaks for it.  They
agree, as the blocks were refined from the accepting and the rejecting indices
(`Guarded.blockAccepts_eq`), and so the other breach is not reached either.
-/

namespace PatternAutomata.Guarded

/-! ### Surveys with guarded edges -/

section Survey

variable {σ : Type} {system : TransitionSystem σ} {edges : σ → Guarded (List (Char × σ))}
  {limit rounds : Nat} {survey : Survey σ}

/-- Settles up to `rounds` more points, whose edges are looked up.  The limit is met by an answer,
not by a stop. -/
def settle (key : σ → List Nat) (edges : σ → Guarded (List (Char × σ))) (limit : Nat) :
    Nat → Survey σ → Guarded (Option (Survey σ))
  | 0, survey => return some survey
  | rounds + 1, survey =>
    match survey.found[survey.rows.size]? with
    | none => return some survey
    | some point => do
      match survey.row key limit (← edges point) with
      | none => return none
      | some (row, survey) =>
        settle key edges limit rounds { survey with rows := survey.rows.push row }

/-- **A survey looks up the edges of points that can be met and of no others.**  Thus the
hypothesis `agree` need not speak of points at which a lookup would fail. -/
theorem settle_eq (hkey : Function.Injective system.key)
    (agree : ∀ p, system.Reachable p → edges p = .ok (system.edges p))
    (under : system.Underway survey) :
    settle system.key edges limit rounds survey = .ok (system.settle limit rounds survey) := by
  -- What carries the induction is that only points that can be met are found.
  induction rounds generalizing survey with
  | zero => rfl
  | succ rounds ih =>
      rw [settle, TransitionSystem.settle]
      cases hpoint : survey.found[survey.rows.size]? with
      | none => rfl
      | some point =>
          simp only [agree point (under.reachable _ _ hpoint), ok_bind]
          cases hrow : survey.row system.key limit (system.edges point) with
          | none => rfl
          | some r => exact ih (under.step hpoint (Survey.row_some hkey under.filed hrow))

end Survey

/-! ### Blocks -/

variable {q : Quotient} {d : Dfa} {b : Nat}

/-- The indices of a block, and the one that speaks for it.  An empty block would have none. -/
def members (q : Quotient) (block : Nat) : Guarded (StateSet × Nat) := do
  let indices ← expect q.partition.blocks[block]?
  let speaker ← expect indices.min?
  return (indices, speaker)

/-- The block of an index.  It has to be there as well, since it is looked up by its number
later. -/
def blockOf (q : Quotient) (index : Nat) : Guarded Nat := do
  let block ← expect q.partition.blockOf[index]?
  require (block < q.partition.blocks.size)
  return block

/-- The block that is left out, if it is: that of the sink, when the sink is alone in it. -/
def dropped? (q : Quotient) : Guarded (Option Nat) :=
  match q.table.sink with
  | none => return none
  | some sink => do
    let block ← blockOf q sink
    let indices ← expect q.partition.blocks[block]?
    return if indices.size = 1 then some block else none

/-- The edges that leave a block, as its speaker has them; those into the block that is left out
are missing. -/
def edges (q : Quotient) (dropped : Option Nat) (block : Nat) :
    Guarded (List (Char × Nat)) := do
  let (_, speaker) ← members q block
  let row ← expect q.table.delta[speaker]?
  let targets ← (q.table.symbols.zip row.toList).mapM fun (c, target) => do
    return (c, ← blockOf q target)
  return targets.filterMap fun (c, next) => if dropped = some next then none else some (c, next)

/-- The blocks that are met, and how they follow from one another.  There is no more than one
point for each block, which is what the limit says. -/
def survey (q : Quotient) (dropped : Option Nat) : Guarded (Option (Survey Nat)) := do
  let start ← blockOf q q.table.start
  let limit := q.partition.blocks.size
  match Survey.empty.number q.system.key limit start with
  | none => return none
  | some (_, survey) => settle q.system.key (edges q dropped) limit limit survey

/-- Whether a block accepts; all its indices have to agree with the one that speaks for it. -/
def blockAccepts (q : Quotient) (block : Nat) : Guarded Bool := do
  let (indices, speaker) ← members q block
  let accepting ← accepts q.table speaker
  let all ← indices.toList.mapM (accepts q.table)
  if all.all (· == accepting) then return accepting
  else throw (.refused (.breached (.mixedBlock (indices.toList.filterMap q.table.original?))))

/-- The edges of a block with the numbers that the blocks have been given in the first pass. -/
def rowOf (q : Quotient) (dropped : Option Nat) (numbers : Std.ExtTreeMap (List Nat) Nat)
    (block : Nat) : Guarded (List (Char × Nat)) := do
  (← edges q dropped block).mapM fun (c, next) =>
    match numbers[q.system.key next]? with
    | none => throw (.refused (.breached (.unnumberedBlock next)))
    | some number => return (c, number)

/-- The automaton of the blocks that are met from the start, with the block of each of its
states. -/
def toDfa (q : Quotient) : Guarded (Dfa × List Nat) := do
  let dropped ← dropped? q
  match ← survey q dropped with
  | none => throw (.refused (.breached (.unnumberedBlock q.partition.blocks.size)))
  | some survey =>
    let blocks := survey.found.toList
    let accepting ← blocks.mapM (blockAccepts q)
    let rows ← blocks.mapM (rowOf q dropped survey.numbers)
    let dfa ← lift (Dfa.ofRows (.ofList q.table.symbols) (accepting.zip rows))
    return (dfa, blocks)

/-- What the states of a block stand for, taken together and in order. -/
def mergedMapping (q : Quotient) (mapping : Std.ExtTreeMap Nat (List Nat)) (blocks : List Nat) :
    Guarded (Std.ExtTreeMap Nat (List Nat)) := do
  let entries ← blocks.zipIdx.mapM fun (block, state) => do
    let indices ← expect q.partition.blocks[block]?
    let states := indices.toList.filterMap q.table.original?
    return (state, (StateSet.ofList (states.flatMap fun s => mapping[s]?.getD [])).toList)
  return .ofList entries

/-- The minimal automaton.  With one state or without symbols there is nothing to merge, and no
table is made. -/
def minimize (dfa : Dfa) : Guarded Dfa :=
  if dfa.numStates ≤ 1 ∨ dfa.alphabet.isEmpty then return dfa
  else do
    let table ← table dfa
    let q : Quotient := ⟨table, ← refine table⟩
    let (minimal, blocks) ← toDfa q
    match dfa.mapping with
    | none => return minimal
    | some mapping => return minimal.setMapping (← mergedMapping q mapping blocks)

theorem members_eq (fits : q.Fits d) (hb : b < q.partition.blocks.size) :
    members q b = .ok (q.partition.block b, q.speaker b) := by
  obtain ⟨i, hi⟩ := fits.valid.nonempty b hb
  obtain ⟨least, hleast⟩ := Option.isSome_iff_exists.1 (Std.ExtTreeSet.isSome_min?_of_mem hi)
  rw [members, expect_getElem? hb ∅, ok_bind]
  show (expect (q.partition.block b).min? >>= fun speaker => .ok (q.partition.block b, speaker)) = _
  rw [Quotient.speaker, hleast]
  rfl

theorem blockOf_eq (fits : q.Fits d) {i : Nat} (hi : i < q.table.size) :
    blockOf q i = .ok (q.partition.numberOf i) := by
  rw [blockOf, expect_getElem? (fits.valid.size_blockOf ▸ hi) 0, ok_bind]
  show (require (q.partition.numberOf i < q.partition.blocks.size) >>= _) = _
  rw [require_of (fits.valid.number_lt i hi)]
  rfl

theorem dropped?_eq (fits : q.Fits d) : dropped? q = .ok q.dropped? := by
  unfold dropped? Quotient.dropped?
  cases hsink : q.table.sink with
  | none => rfl
  | some sink =>
      have hlt := fits.describes.sink_lt hsink
      simp only [blockOf_eq fits hlt, ok_bind, expect_getElem? (fits.valid.number_lt _ hlt) ∅]
      rfl

/-- The index that speaks for a block moves to indices that have a block.  This is needed of every
block, as it is not known here which of them are met. -/
theorem edges_eq (fits : q.Fits d) (hb : b < q.partition.blocks.size) :
    edges q q.dropped? b = .ok (q.system.edges b) := by
  have hlt := (fits.speaker_spec hb).1
  have hrow := fits.describes.sound.row_size _ hlt
  have targets : ∀ e ∈ q.table.symbols.zip (q.table.delta.getD (q.speaker b) #[]).toList,
      (do return (e.1, ← blockOf q e.2) : Guarded (Char × Nat)) =
        .ok (e.1, q.partition.numberOf e.2) := by
    intro e he
    obtain ⟨a, ha⟩ := List.mem_iff_getElem?.1 (List.of_mem_zip he).2
    obtain ⟨ha, htarget⟩ := Array.getElem?_eq_some_iff.1 (Array.getElem?_toList ▸ ha)
    have hstep : q.table.step (q.speaker b) a = e.2 := by
      rw [Table.step, Array.getD_eq_getD_getElem?, Array.getElem?_eq_getElem ha, htarget]
      rfl
    rw [blockOf_eq fits (hstep ▸ fits.describes.sound.step_lt _ hlt a (hrow ▸ ha))]
    rfl
  rw [edges, members_eq fits hb, ok_bind]
  simp only [expect_getElem? hlt #[], ok_bind, mapM_eq_ok targets]
  show Except.ok (List.filterMap _ (List.map _ _)) = _
  rw [List.filterMap_map]
  rfl

theorem survey_eq (fits : q.Fits d) :
    survey q q.dropped? = .ok (q.system.survey q.partition.blocks.size) := by
  have hkey : Function.Injective q.system.key := fun a b h => (List.cons.inj h).1
  have start : q.partition.numberOf q.table.start = q.system.start := rfl
  rw [survey, blockOf_eq fits fits.describes.sound.start_lt, ok_bind, TransitionSystem.survey,
    start]
  cases hnum : Survey.empty.number q.system.key q.partition.blocks.size q.system.start with
  | none =>
      simp only [hnum]
      rfl
  | some r =>
      simp only [hnum]
      exact settle_eq hkey (fun b hb => edges_eq fits (fits.kept_of_reachable hb).1)
        (TransitionSystem.underway_of_number hkey hnum).1

/-- All indices of a block are there, and they agree, so that neither of the two ways to stop is
taken. -/
theorem blockAccepts_eq (fits : q.Fits d) (size : q.table.accepting.size = q.table.size)
    (hb : b < q.partition.blocks.size) : blockAccepts q b = .ok (q.words b []) := by
  have all : ∀ i ∈ (q.partition.block b).toList, accepts q.table i = .ok (q.table.accepts i) :=
    fun i hi => accepts_eq size ((fits.valid.mem_block b i).1 (Std.ExtTreeSet.mem_toList.1 hi)).1
  have agree := fits.blockAccepts_eq hb
  rw [Quotient.blockAccepts] at agree
  rw [blockAccepts, members_eq fits hb, ok_bind]
  simp only [accepts_eq size (fits.speaker_spec hb).1, ok_bind, mapM_eq_ok all, List.all_map]
  split at agree
  · rename_i hall
    rw [Except.ok.injEq] at agree
    exact (if_pos hall).trans (congrArg Except.ok agree)
  · cases agree

/-- **The second pass finds every number**: the edges of a block lead to blocks that are met.
That is known from the row which the first pass has made of the same edges. -/
theorem rowOf_eq (fits : q.Fits d) {survey : Survey Nat} {row : List (Char × Nat)}
    (filed : survey.Filed q.system.key) (hb : b < q.partition.blocks.size)
    (numbered : survey.Numbered (q.system.edges b) row) :
    rowOf q q.dropped? survey.numbers b = .ok row := by
  rw [rowOf, edges_eq fits hb, ok_bind]
  -- Along the first pass, which has numbered these edges one by one.
  generalize q.system.edges b = edges at numbered
  induction numbered with
  | nil => rfl
  | @cons e r edges row hr _ ih =>
      obtain ⟨c, next⟩ := e
      obtain ⟨c', number⟩ := r
      obtain ⟨rfl, hfound⟩ := hr
      have hnumber := (filed (q.system.key next) number).2 ⟨next, hfound, rfl⟩
      simp only [List.mapM_cons, hnumber, ih]
      rfl

theorem toDfa_eq (fits : q.Fits d) (size : q.table.accepting.size = q.table.size) :
    toDfa q = lift q.toDfa := by
  have hkey : Function.Injective q.system.key := fun a b h => (List.cons.inj h).1
  rw [toDfa, dropped?_eq fits, ok_bind, survey_eq fits, ok_bind, Quotient.toDfa]
  rcases TransitionSystem.survey_spec hkey q.partition.blocks.size with
    ⟨survey, hsurvey, done, -⟩ | ⟨hnone, -⟩
  · have there : ∀ b ∈ survey.found.toList, b < q.partition.blocks.size := fun b =>
      fits.lt_of_mem_found done
    have accepting : survey.found.toList.mapM (blockAccepts q) =
        .ok (survey.found.toList.map fun b => q.words b []) :=
      mapM_eq_ok fun b hb => blockAccepts_eq fits size (there b hb)
    have rows : survey.found.toList.mapM (rowOf q q.dropped? survey.numbers) =
        .ok survey.rows.toList := by
      refine mapM_eq_ok_of_forall₂ (List.forall₂_iff_get.2
        ⟨done.settled.symm, fun i hi hi' => ?_⟩)
      obtain ⟨row, hrow, numbered⟩ := done.row_of_found (Array.getElem?_eq_getElem hi)
      obtain ⟨hlt, rfl⟩ := Array.getElem?_eq_some_iff.1 hrow
      exact rowOf_eq fits done.filed (there _ (List.get_mem _ ⟨i, hi⟩)) numbered
    simp only [hsurvey, accepting, rows, ok_bind, fits.mapM_blockAccepts there, Error.ok_bind,
      lift_bind]
    rfl
  · rw [hnone]
    rfl

theorem mergedMapping_eq (mapping : Std.ExtTreeMap Nat (List Nat)) {blocks : List Nat}
    (there : ∀ b ∈ blocks, b < q.partition.blocks.size) :
    mergedMapping q mapping blocks = .ok (q.mergedMapping mapping blocks) := by
  rw [mergedMapping, mapM_eq_ok (g := fun e : Nat × Nat =>
    (e.2, (StateSet.ofList (((q.partition.block e.1).toList.filterMap q.table.original?).flatMap
      fun s => mapping[s]?.getD [])).toList)) fun e he => ?_]
  · rfl
  · obtain ⟨block, state⟩ := e
    simp only [expect_getElem? (there _ (List.fst_mem_of_mem_zipIdx he)) ∅]
    rfl

/-- The blocks of the states are there, which the mapping relies on when it looks up their
members. -/
theorem lt_of_mem_toDfa (fits : q.Fits d) {m : Dfa} {blocks : List Nat}
    (h : q.toDfa = .ok (m, blocks)) : ∀ b ∈ blocks, b < q.partition.blocks.size := by
  obtain ⟨survey, _, hok, done, -⟩ := fits.toDfa_charted
  rw [h] at hok
  obtain rfl : blocks = survey.found.toList := congrArg Prod.snd (Except.ok.inj hok)
  exact fun b => fits.lt_of_mem_found done

/-- **Minimization without a lookup out of range.**  The automaton is any with a state: nothing is
asked of the order of its edges, or of what its states stand for. -/
theorem minimize_eq (hpos : 0 < d.numStates) : minimize d = lift d.minimize := by
  unfold minimize Dfa.minimize
  by_cases hsmall : d.numStates ≤ 1 ∨ d.alphabet.isEmpty = true
  · rw [if_pos hsmall, if_pos hsmall]
    rfl
  · rw [if_neg hsmall, if_neg hsmall]
    have size := size_accepting_ofDfa d
    have fits := Quotient.fits_refine hpos
    simp only [table_eq hpos, ok_bind, refine_eq fits.describes.sound size,
      toDfa_eq fits size, lift_bind]
    cases htoDfa : Quotient.toDfa ⟨Table.ofDfa d, Partition.refine (Table.ofDfa d)⟩ with
    | error e => rfl
    | ok r =>
        obtain ⟨m, blocks⟩ := r
        simp only [lift_ok, ok_bind]
        cases d.mapping with
        | none => rfl
        | some mapping =>
            simp only [mergedMapping_eq mapping (lt_of_mem_toDfa fits htoDfa)]
            rfl

end PatternAutomata.Guarded
