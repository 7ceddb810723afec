import PatternAutomata.Proofs.Minimize.Quotient

/-!
# What the states of a minimal automaton stand for

A state of a minimal automaton takes the place of the states from which the same words are
accepted, as far as they are reached, and stands for whatever these stand for.

## Said without blocks

Minimization takes the lists together block by block, but a block is nothing that a caller can
see.  `Dfa.Replaces` says the same by words, and `Dfa.Merges` describes the new mapping by it:
there is an entry for every state and for no other number, each entry is ascending, and its
members are those of the entries of the replaced states.  These three determine the mapping, which
`Quotient.Minimizes.merges` shows of what is made from the blocks.

## When every state replaces itself

In a canonical automaton no two states accept the same words, so a second minimization takes
nothing together (`Dfa.Merges.eq_of_same`).  This is the part of idempotence that is about
mappings.

## Complete automata

Where no edge is missing, the replaced states have a simpler description: they are those that the
same words lead to (`Dfa.Canonical.replaces_iff`).  With gaps this fails, since a word may lead to
a dead state in the one automaton and nowhere in the other.  `Dfa.exists_merged` is about complete
automata for this reason.  It includes those that are not minimized at all because they have one
state or no symbols.
-/

namespace PatternAutomata

namespace Dfa

variable {d m e : Dfa} {mapping merged again : Std.ExtTreeMap Nat (List Nat)}

/-- `m.Replaces d s r`: the state `s` of `m` takes the place of the state `r` of `d`.  A word
leads to `r`, and the same words are accepted from both.  States that no word leads to are
replaced by none. -/
def Replaces (m d : Dfa) (s r : Nat) : Prop :=
  (∃ w, d.run w = some r) ∧ ∀ v, d.acceptsFrom r v = m.acceptsFrom s v

/-- `m.Merges d mapping merged`: every state stands for what the states stand for that it
replaces, in ascending order.  A replaced state without an entry stands for nothing. -/
structure Merges (m d : Dfa) (mapping merged : Std.ExtTreeMap Nat (List Nat)) : Prop where
  lt_iff : ∀ s, s < m.numStates ↔ ∃ list, merged[s]? = some list
  sorted : ∀ (s : Nat) list, merged[s]? = some list → list.Pairwise (· < ·)
  mem_iff : ∀ (s : Nat) list, merged[s]? = some list →
    ∀ x, x ∈ list ↔ ∃ r, m.Replaces d s r ∧ x ∈ mapping[r]?.getD []

/-- In an automaton in which nothing is left to choice, every state replaces itself only.  Two
states that accept the same words would be one. -/
theorem Same.replaces_iff (same : e.Same m) (canonical : m.Canonical) {s r : Nat}
    (hs : s < m.numStates) : e.Replaces m s r ↔ r = s := by
  constructor
  · rintro ⟨⟨w, hw⟩, heq⟩
    by_contra hne
    have hr := canonical.built.wellFormed.run_lt canonical.pos hw
    obtain ⟨v, hv⟩ := canonical.reduced r s hr hs hne
    exact hv ((heq v).trans (same.acceptsFrom_eq s v))
  · rintro rfl
    exact ⟨canonical.accessible r hs, fun v => (same.acceptsFrom_eq r v).symm⟩

/-- **Taken together once more, nothing changes** if every state replaces itself.  The first
mapping has its lists in order, which is why not even the order changes. -/
theorem Merges.eq_of_same (h : m.Merges d mapping merged) (h' : e.Merges m merged again)
    (same : e.Same m) (canonical : m.Canonical) : again = merged := by
  refine Std.ExtTreeMap.ext_getElem? fun s => ?_
  by_cases hs : s < m.numStates
  · obtain ⟨list, hlist⟩ := (h.lt_iff s).1 hs
    obtain ⟨list', hlist'⟩ := (h'.lt_iff s).1 (same.numStates_eq ▸ hs)
    rw [hlist, hlist']
    refine congrArg some ((h'.sorted s list' hlist').eq_of_mem_iff (h.sorted s list hlist) ?_)
    intro x
    rw [h'.mem_iff s list' hlist' x]
    simp only [same.replaces_iff canonical hs, exists_eq_left, hlist, Option.getD_some]
  · have hnone : merged[s]? = none :=
      Option.eq_none_iff_forall_ne_some.2 fun list h₁ => hs ((h.lt_iff s).2 ⟨list, h₁⟩)
    have hnone' : again[s]? = none := Option.eq_none_iff_forall_ne_some.2 fun list h₁ =>
      hs (same.numStates_eq ▸ (h'.lt_iff s).2 ⟨list, h₁⟩)
    rw [hnone, hnone']

end Dfa

/-- What the states of a block stand for, taken together.  It is an entry of the mapping, said for
one block. -/
def Quotient.merged (q : Quotient) (mapping : Std.ExtTreeMap Nat (List Nat)) (b : Nat) : List Nat :=
  (StateSet.ofList (((q.partition.block b).toList.filterMap q.table.original?).flatMap
    fun r => mapping[r]?.getD [])).toList

theorem Quotient.getElem?_mergedMapping (q : Quotient) (mapping : Std.ExtTreeMap Nat (List Nat))
    (blocks : List Nat) (s : Nat) :
    (q.mergedMapping mapping blocks)[s]? = blocks[s]?.map (q.merged mapping) :=
  TransitionSystem.getElem?_ofList_zipIdx (q.merged mapping) blocks s

namespace Quotient.Minimizes

variable {q : Quotient} {survey : Survey Nat} {bare d m : Dfa}

/-- What the states stand for makes no other automaton, since it is no part of the states and the
edges. -/
theorem same (h : q.Minimizes survey bare d m) : m.Same bare := by
  rw [h.eq]
  exact ⟨rfl, rfl, rfl, rfl, rfl⟩

/-- The states of a block are those that the state of the block replaces.  The sink is a member of
its block but no state, and the list leaves it out. -/
theorem mem_originals_iff (h : q.Minimizes survey bare d m) (wf : d.WellFormed) {s b r : Nat}
    (hb : survey.found[s]? = some b) :
    r ∈ (q.partition.block b).toList.filterMap q.table.original? ↔ m.Replaces d s r := by
  have fits := h.fits
  have kept := fits.kept_of_found h.done hb
  have words : ∀ v, m.acceptsFrom s v = q.words b v := fun v =>
    (h.same.acceptsFrom_eq s v).trans (h.chart.acceptsFrom_eq h.done fits.follows hb v)
  simp only [List.mem_filterMap, Std.ExtTreeSet.mem_toList]
  constructor
  · rintro ⟨i, hi, horiginal⟩
    obtain ⟨hlt, -, rfl⟩ := (fits.valid.mem_block b i).1 hi
    refine ⟨(fits.describes.mem_originals r).1 (List.mem_of_getElem? horiginal), fun v => ?_⟩
    rw [words, fits.words_numberOf hlt, fits.describes.acceptsFrom_eq wf horiginal]
  · rintro ⟨hreached, heq⟩
    obtain ⟨i, hi⟩ := List.mem_iff_getElem?.1 ((fits.describes.mem_originals r).2 hreached)
    have hlt := fits.describes.lt_size hi
    obtain ⟨hspeaker, hnum⟩ := fits.speaker_spec kept.1
    have halike : q.table.Alike i (q.speaker b) := fun v => by
      rw [fits.describes.acceptsFrom_eq wf hi, heq, words]
      rfl
    refine ⟨i, (fits.valid.mem_block b i).2 ⟨hlt, kept.1, ?_⟩, hi⟩
    rw [(fits.alike_iff i _ hlt hspeaker).2 halike, hnum]

/-- **Minimization takes together what the replaced states stand for.**  The mapping may be any,
with entries missing or with entries for what is no state. -/
theorem merges (h : q.Minimizes survey bare d m) (wf : d.WellFormed)
    (mapping : Std.ExtTreeMap Nat (List Nat)) :
    m.Merges d mapping (q.mergedMapping mapping survey.found.toList) := by
  have entry : ∀ (s : Nat) list, (q.mergedMapping mapping survey.found.toList)[s]? = some list ↔
      ∃ b, survey.found[s]? = some b ∧ q.merged mapping b = list := by
    intro s list
    rw [getElem?_mergedMapping, Option.map_eq_some_iff, Array.getElem?_toList]
  refine ⟨fun s => ?_, fun s list hlist => ?_, fun s list hlist x => ?_⟩
  · rw [h.same.numStates_eq, h.chart.numStates_eq]
    constructor
    · intro hs
      exact ⟨_, (entry s _).2 ⟨_, Array.getElem?_eq_getElem hs, rfl⟩⟩
    · rintro ⟨list, hlist⟩
      obtain ⟨b, hb, -⟩ := (entry s list).1 hlist
      exact (Array.getElem?_eq_some_iff.1 hb).1
  · obtain ⟨b, -, rfl⟩ := (entry s list).1 hlist
    exact (StateSet.ofList _).ordered_toList.imp Nat.compare_eq_lt.1
  · obtain ⟨b, hb, rfl⟩ := (entry s list).1 hlist
    rw [merged, Std.ExtTreeSet.mem_toList, StateSet.mem_ofList, List.mem_flatMap]
    simp only [h.mem_originals_iff wf hb]

end Quotient.Minimizes

/-! ### Complete automata -/

namespace Dfa

variable {d m : Dfa} {mapping : Std.ExtTreeMap Nat (List Nat)}

/-- In a complete automaton, **a state replaces those that the same words lead to**.  Completeness
is asked of the minimal automaton only, so that every word to a replaced state leads somewhere in
it. -/
theorem Canonical.replaces_iff (canonical : m.Canonical) (total : m.Total) (wf : d.WellFormed)
    (alphabet_eq : m.alphabet = d.alphabet) (accepts_eq : ∀ w, m.accepts w = d.accepts w)
    {s r : Nat} (hs : s < m.numStates) :
    m.Replaces d s r ↔ ∃ w, d.run w = some r ∧ m.run w = some s := by
  have wfm := canonical.built.wellFormed
  constructor
  · rintro ⟨⟨w, hw⟩, heq⟩
    have hword : m.OverAlphabet w := fun c hc => alphabet_eq ▸ wf.overAlphabet_of_runFrom hw c hc
    obtain ⟨t, ht⟩ := total.exists_run wfm canonical.pos hword
    refine ⟨w, hw, ?_⟩
    rw [ht]
    by_contra hne
    obtain ⟨v, hv⟩ := canonical.reduced t s (wfm.run_lt canonical.pos ht) hs
      fun h => hne (congrArg some h)
    refine hv ?_
    rw [← accepts_append ht, accepts_eq, accepts_append hw, heq]
  · rintro ⟨w, hw, hs⟩
    refine ⟨⟨w, hw⟩, fun v => ?_⟩
    rw [← accepts_append hw, ← accepts_eq, accepts_append hs]

/-- An automaton that stays as it is when it is minimized has nothing to take together, provided
that its mapping is in order already. -/
theorem Canonical.merges_self (canonical : d.Canonical)
    (lt_iff : ∀ s, s < d.numStates ↔ ∃ list, mapping[s]? = some list)
    (sorted : ∀ (s : Nat) list, mapping[s]? = some list → list.Pairwise (· < ·)) :
    d.Merges d mapping mapping where
  lt_iff := lt_iff
  sorted := sorted
  mem_iff s list hlist x := by
    simp only [(Same.refl d).replaces_iff canonical ((lt_iff s).2 ⟨list, hlist⟩), exists_eq_left,
      hlist, Option.getD_some]

/-- **What the states of a complete automaton stand for is taken together**, if all of them are
reached, whether or not there is anything to minimize.  That every state has an ascending entry is
asked for the latter case, in which the mapping is returned as it is. -/
theorem exists_merged (hb : d.Built) (pos : 0 < d.numStates) (total : d.Total)
    (accessible : d.Accessible) (hmapping : d.mapping = some mapping)
    (lt_iff : ∀ s, s < d.numStates ↔ ∃ list, mapping[s]? = some list)
    (sorted : ∀ (s : Nat) list, mapping[s]? = some list → list.Pairwise (· < ·)) :
    ∃ m merged, d.minimize = .ok m ∧ m.mapping = some merged ∧ m.Merges d mapping merged ∧
      m.Canonical ∧ m.Total ∧ m.alphabet = d.alphabet ∧ ∀ w, m.accepts w = d.accepts w := by
  have wf := hb.wellFormed
  by_cases small : d.numStates ≤ 1 ∨ d.alphabet = ∅
  · have hone : d.numStates = 1 :=
      small.elim (fun h => Nat.le_antisymm h pos) (accessible.numStates_eq_one wf pos)
    have canonical := canonical_of_numStates_eq_one hb hone
    exact ⟨d, mapping, minimize_of_small small, hmapping, canonical.merges_self lt_iff sorted,
      canonical, total, rfl, fun _ => rfl⟩
  · obtain ⟨large, symbols⟩ := not_or.1 small
    obtain ⟨q, survey, bare, m, hm, h⟩ := exists_minimizes (Nat.lt_of_not_le large) symbols
    have minimized := h.minimized wf
    refine ⟨m, q.mergedMapping mapping survey.found.toList, hm, ?_, h.merges wf mapping,
      minimized.canonical, minimized.total fun _ s hw => total s (wf.run_lt pos hw),
      minimized.alphabet_eq, minimized.accepts_eq⟩
    rw [h.eq, hmapping]
    rfl

end Dfa

end PatternAutomata
