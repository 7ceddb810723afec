import Mathlib.Data.List.Induction
import PatternAutomata.Nfa.Simulation
import PatternAutomata.Proofs.Search

/-!
# Paths through a nondeterministic automaton

A nondeterministic automaton is run by keeping track of all active states.  What such a run means
is a path: a walk along edges, some of which read a symbol and some of which read nothing.
Everything that is said about the language of a nondeterministic automaton is said through its
paths.

## Active states and paths

A state is active after a word iff a path over the word leads to it (`Nfa.mem_active`).  The run
goes through a word from left to right, and closes the set of active states under epsilon edges
after every symbol.  A path may take epsilon edges anywhere.  The two are compared by cutting a
path before its last symbol (`Nfa.path_concat_iff`), where epsilon edges in front of the symbol
are counted to what comes before it.

## Stopping early

The run gives up a word as soon as nothing is active.  That changes no answer, since where nothing
is active nothing becomes active again; with this a word is accepted iff a path over it leads to
an accepting state (`Nfa.accepts_iff`).  It does not matter whether the automaton is well-formed
for any of this.
-/

namespace PatternAutomata.Nfa

variable {nfa : Nfa} {s t u : Nat} {v w : List Char} {c : Char}

/-- `nfa.Path s w t`: from `s` one may walk to `t` while the symbols of `w` are read.  Epsilon
edges are walked along without reading. -/
inductive Path (nfa : Nfa) : Nat → List Char → Nat → Prop where
  | nil (s : Nat) : Path nfa s [] s
  | silent {s t u : Nat} {w : List Char} :
      t ∈ nfa.silent s → Path nfa t w u → Path nfa s w u
  | symbol {s t u : Nat} {c : Char} {w : List Char} :
      t ∈ nfa.on s c → Path nfa t w u → Path nfa s (c :: w) u

/-- The states that are active after a word. -/
def active (nfa : Nfa) (w : List Char) : StateSet :=
  w.foldl nfa.advance nfa.initial

/-- Edges lead to states, the start and the accepting states are states, and every symbol of an
edge is in the alphabet. -/
structure WellFormed (nfa : Nfa) : Prop where
  start_lt : nfa.start < nfa.numStates
  accepting_lt : ∀ s ∈ nfa.accepting, s < nfa.numStates
  silent_lt : ∀ s t, t ∈ nfa.silent s → t < nfa.numStates
  on_lt : ∀ s c t, t ∈ nfa.on s c → t < nfa.numStates
  mem_alphabet : ∀ s c t, t ∈ nfa.on s c → c ∈ nfa.alphabet

/-! ### Edges -/

theorem silent_eq_empty_of_le (h : nfa.numStates ≤ s) : nfa.silent s = ∅ := by
  unfold silent targets?
  rw [Array.getElem?_eq_none h]
  rfl

theorem on_eq_empty_of_le (h : nfa.numStates ≤ s) : nfa.on s c = ∅ := by
  unfold on targets?
  rw [Array.getElem?_eq_none h]
  rfl

theorem lt_of_mem_silent (h : t ∈ nfa.silent s) : s < nfa.numStates := by
  refine Nat.lt_of_not_le fun hle => ?_
  rw [silent_eq_empty_of_le hle] at h
  exact Std.ExtTreeSet.not_mem_empty h

theorem lt_of_mem_on (h : t ∈ nfa.on s c) : s < nfa.numStates := by
  refine Nat.lt_of_not_le fun hle => ?_
  rw [on_eq_empty_of_le hle] at h
  exact Std.ExtTreeSet.not_mem_empty h

/-- The epsilon edges of a state are those of its row. -/
theorem silent_eq {row : Row} (h : nfa.rows[s]? = some row) : nfa.silent s = row.silent := by
  unfold silent targets?
  rw [h]
  by_cases hrow : row.silent.isEmpty = true
  · simpa [hrow] using (Std.ExtTreeSet.isEmpty_iff.1 hrow).symm
  · simp [hrow]

/-- The edges of a state under a symbol are those of its row. -/
theorem on_eq {row : Row} (h : nfa.rows[s]? = some row) : nfa.on s c = (row.on? c).getD ∅ := by
  unfold on targets?
  rw [h]

/-! ### Paths -/

/-- Two paths, one where the other ends, are a path. -/
theorem Path.append (h : nfa.Path s v t) (h' : nfa.Path t w u) : nfa.Path s (v ++ w) u := by
  induction h with
  | nil s => exact h'
  | silent e _ ih => exact .silent e (ih h')
  | symbol e _ ih => exact .symbol e (ih h')

/-- A path over two words stops somewhere between them.  There may be several such places, with
epsilon edges between them. -/
theorem Path.exists_of_append (h : nfa.Path s (v ++ w) u) :
    ∃ t, nfa.Path s v t ∧ nfa.Path t w u := by
  generalize hx : v ++ w = x at h
  induction h generalizing v with
  | nil s =>
      obtain ⟨rfl, rfl⟩ := List.append_eq_nil_iff.1 hx
      exact ⟨s, .nil s, .nil s⟩
  | silent e _ ih =>
      obtain ⟨t, before, after⟩ := ih hx
      exact ⟨t, .silent e before, after⟩
  | @symbol s r u c x e path ih =>
      cases v with
      | nil =>
          rw [List.nil_append] at hx
          exact ⟨s, .nil s, hx ▸ .symbol e path⟩
      | cons b v =>
          rw [List.cons_append, List.cons.injEq] at hx
          obtain ⟨t, before, after⟩ := ih hx.2
          exact ⟨t, hx.1 ▸ .symbol e before, after⟩

theorem WellFormed.path_lt (wf : nfa.WellFormed) (h : nfa.Path s w t)
    (hs : s < nfa.numStates) : t < nfa.numStates := by
  induction h with
  | nil s => exact hs
  | silent e _ ih => exact ih (wf.silent_lt _ _ e)
  | symbol e _ ih => exact ih (wf.on_lt _ _ _ e)

/-- Only symbols of the alphabet are read on a path. -/
theorem WellFormed.mem_alphabet_of_path (wf : nfa.WellFormed) (h : nfa.Path s w t) :
    ∀ c ∈ w, c ∈ nfa.alphabet := by
  induction h with
  | nil s => intro c hc; cases hc
  | silent _ _ ih => exact ih
  | symbol e _ ih =>
      intro b hb
      rcases List.mem_cons.1 hb with rfl | hb
      · exact wf.mem_alphabet _ _ _ e
      · exact ih b hb

/-! ### Active states -/

/-- A state is in the closure of some states iff a path that reads nothing leads to it from one of
them. -/
theorem mem_closure {states : StateSet} :
    t ∈ nfa.closure states ↔ ∃ s ∈ states, nfa.Path s [] t := by
  have edge_iff : ∀ s t, Search.Edge nfa.numStates (fun s => (nfa.silent s).toList) s t ↔
      t ∈ nfa.silent s := fun s t =>
    ⟨fun e => Std.ExtTreeSet.mem_toList.1 e.2,
      fun h => ⟨lt_of_mem_silent h, Std.ExtTreeSet.mem_toList.2 h⟩⟩
  have path_iff : ∀ s, nfa.Path s [] t ↔
      Relation.ReflTransGen (Search.Edge nfa.numStates fun s => (nfa.silent s).toList) s t := by
    intro s
    constructor
    · intro path
      generalize hw : ([] : List Char) = w at path
      induction path with
      | nil s => exact .refl
      | silent e _ ih => exact .head ((edge_iff _ _).2 e) (ih hw)
      | symbol => cases hw
    · intro path
      induction path using Relation.ReflTransGen.head_induction_on with
      | refl => exact .nil t
      | head e _ ih => exact .silent ((edge_iff _ _).1 e) ih
  rw [closure, Search.mem_reach]
  simp only [Std.ExtTreeSet.mem_toList, path_iff]

theorem mem_move {states : StateSet} :
    t ∈ nfa.move states c ↔ ∃ s ∈ states, t ∈ nfa.on s c := by
  have fold : ∀ (list : List Nat) (reached : StateSet),
      t ∈ list.foldl (fun reached s => reached ∪ nfa.on s c) reached ↔
        t ∈ reached ∨ ∃ s ∈ list, t ∈ nfa.on s c := by
    intro list
    induction list with
    | nil => simp
    | cons s list ih =>
        intro reached
        rw [List.foldl_cons, ih, Std.ExtTreeSet.mem_union_iff, or_assoc]
        simp [List.mem_cons]
  rw [move, fold]
  simp [Std.ExtTreeSet.mem_toList]

/-- A state is active after one more symbol iff an edge under it and then epsilon edges lead
there. -/
theorem mem_advance {states : StateSet} :
    t ∈ nfa.advance states c ↔ ∃ s ∈ states, ∃ r ∈ nfa.on s c, nfa.Path r [] t := by
  rw [advance, mem_closure]
  simp only [mem_move]
  constructor
  · rintro ⟨r, ⟨s, hs, e⟩, path⟩
    exact ⟨s, hs, r, e, path⟩
  · rintro ⟨s, hs, r, e, path⟩
    exact ⟨r, ⟨s, hs, e⟩, path⟩

theorem active_concat (nfa : Nfa) (w : List Char) (c : Char) :
    nfa.active (w ++ [c]) = nfa.advance (nfa.active w) c := by
  rw [active, List.foldl_append]
  rfl

/-- A path over a word with one more symbol reaches the state before that symbol is read, then
reads it, and then reads nothing more. -/
theorem path_concat_iff :
    nfa.Path s (w ++ [c]) u ↔ ∃ r t, nfa.Path s w r ∧ t ∈ nfa.on r c ∧ nfa.Path t [] u := by
  constructor
  · intro path
    obtain ⟨q, before, after⟩ := path.exists_of_append
    -- epsilon edges in front of the symbol are counted to what comes before it
    generalize hx : [c] = x at after
    induction after generalizing s w with
    | nil => cases hx
    | @silent q q' u x e _ ih =>
        have hq' : nfa.Path s w q' := by
          have := before.append (.silent e (.nil q'))
          rwa [List.append_nil] at this
        exact ih path hq' hx
    | @symbol q t u b x e after _ =>
        obtain ⟨rfl, rfl⟩ := List.cons.inj hx
        exact ⟨q, t, before, e, after⟩
  · rintro ⟨r, t, before, e, after⟩
    exact before.append (.symbol e after)

/-- **A state is active after a word iff a path over the word leads to it**, by induction over the
word from its end. -/
theorem mem_active : t ∈ nfa.active w ↔ nfa.Path nfa.start w t := by
  induction w using List.reverseRecOn generalizing t with
  | nil =>
      show t ∈ nfa.closure (.singleton nfa.start) ↔ _
      rw [mem_closure]
      simp [StateSet.mem_singleton]
  | append_singleton w c ih =>
      rw [active_concat, mem_advance, path_concat_iff]
      constructor
      · rintro ⟨r, hr, q, e, path⟩
        exact ⟨r, q, ih.1 hr, e, path⟩
      · rintro ⟨r, q, hr, e, path⟩
        exact ⟨r, ih.2 hr, q, e, path⟩

theorem advance_empty (nfa : Nfa) (c : Char) : nfa.advance ∅ c = ∅ := by
  ext t
  rw [mem_advance]
  constructor
  · rintro ⟨s, hs, -⟩
    exact absurd hs Std.ExtTreeSet.not_mem_empty
  · exact fun h => absurd h Std.ExtTreeSet.not_mem_empty

/-- Stopping early when nothing is active changes no answer.  The states may be any, as the
induction is over the rest of the word. -/
theorem acceptsFrom_iff {states : StateSet} :
    nfa.acceptsFrom states w = true ↔
      ∃ t ∈ nfa.accepting, t ∈ w.foldl nfa.advance states := by
  induction w generalizing states with
  | nil =>
      rw [acceptsFrom, StateSet.intersects_iff]
      simp only [List.foldl_nil]
      exact exists_congr fun t => and_comm
  | cons c w ih =>
      simp only [acceptsFrom]
      split
      · rename_i hempty
        -- where nothing is active, nothing becomes active again
        have dead : ∀ x : List Char, x.foldl nfa.advance ∅ = ∅ := by
          intro x
          induction x with
          | nil => rfl
          | cons b x ihx => rw [List.foldl_cons, advance_empty, ihx]
        rw [List.foldl_cons, Std.ExtTreeSet.isEmpty_iff.1 hempty, dead]
        simp
      · exact ih

/-- **A word is accepted iff a path over it leads from the start to an accepting state.** -/
theorem accepts_iff :
    nfa.accepts w = true ↔ ∃ t ∈ nfa.accepting, nfa.Path nfa.start w t := by
  rw [accepts, acceptsFrom_iff]
  exact exists_congr fun t => and_congr_right fun _ => mem_active

end PatternAutomata.Nfa
