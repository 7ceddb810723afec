import PatternAutomata.Dfa.Editing
import PatternAutomata.Proofs.Dfa.Completion
import PatternAutomata.Proofs.Dfa.Reachability

/-!
# Changing an automaton in place

Every edge is on file twice, the alphabet grows with the edges, and completeness is told by
counting.  All of it stays in step over any number of requests, those that are refused among them,
and `Dfa.consistent_after` is the theorem that says so.

## In place and on a copy

A step in place that is refused could leave a part of its work behind; a step on a copy leaves the
automaton as it is, or as it has to be.  The two are compared once for every step
(`Dfa.runOn_addTransition`, `Dfa.runOn_complete`), and from there on all is proved of the automata
that steps on copies lead to.  Completion is the step for which this is not plain: it makes many
changes and could be refused in the middle.  It is not, because the gaps were listed before the
new state was there.

## What consistent means

`Dfa.Consistent` collects what can be said of the automaton as it stands, and what can be said of
an edge that is asked for next.  Of such an edge there are three kinds.  It is refused if an end
is missing or the source has another target already, and then nothing changes.  It may be there
already, and then it is granted and nothing changes either.  Otherwise it is granted and filed,
and `Dfa.WithEdge` says what is new: the edge at both its ends and its symbol, and nothing
besides.  Together they leave no outcome of a request for an edge open.

The count in the first field is of the file at the target, and it is stronger than membership: a
source that was filed twice would be a member still, but it would be followed twice when edges are
read backwards.
-/

namespace PatternAutomata.Dfa

variable {dfa : Dfa}

/-! ### The steps in place -/

section

variable {α β : Type}

/-- Two steps in turn: the second starts from what the first has left, and a refusal keeps what
was changed before it. -/
theorem runOn_bind (x : Edit α) (f : α → Edit β) (dfa : Dfa) :
    (x >>= f).runOn dfa =
      match x.runOn dfa with
      | (.ok a, later) => (f a).runOn later
      | (.error e, later) => (.error e, later) := by
  unfold Edit.runOn ExceptT.run StateT.run
  simp only [bind, ExceptT.bind, ExceptT.mk, StateT.bind, ExceptT.bindCont]
  rcases x dfa with ⟨_ | a, later⟩ <;> rfl

theorem runOn_bind_of_ok {x : Edit α} {f : α → Edit β} {later : Dfa} {a : α}
    (h : x.runOn dfa = (.ok a, later)) : (x >>= f).runOn dfa = (f a).runOn later := by
  rw [runOn_bind, h]

end

theorem runOn_get (dfa : Dfa) : (get : Edit Dfa).runOn dfa = (.ok dfa, dfa) := rfl

/-- An edge is filed in place as it is on a copy. -/
theorem runOn_file (dfa : Dfa) (source : Nat) (c : Char) (target : Nat) :
    (Edit.file source c target).runOn dfa = (.ok (), dfa.file source c target) := rfl

/-- **An edge is added in place as it is on a copy, or nothing changes.**  All checks come before
the first change, so a refusal finds the automaton untouched. -/
theorem runOn_addTransition (dfa : Dfa) (source : Nat) (c : Char) (target : Nat) :
    (Edit.addTransition source c target).runOn dfa =
      match dfa.addTransition source c target with
      | .ok later => (.ok (), later)
      | .error e => (.error e, dfa) := by
  unfold Edit.addTransition addTransition
  rw [runOn_bind_of_ok (runOn_get dfa)]
  by_cases hends : dfa.numStates ≤ source ∨ dfa.numStates ≤ target
  · rw [if_pos hends, if_pos hends]
    rfl
  · rw [if_neg hends, if_neg hends]
    cases dfa.transition source c with
    | none => exact runOn_file dfa source c target
    | some present =>
        by_cases hsame : present = target
        · simp only [hsame, if_true]
          rfl
        · simp only [hsame, if_false]
          rfl

/-- Edges that can be added on a copy can be added in place, one after another. -/
theorem runOn_forM_addTransition {ι : Type} (edge : ι → Nat × Char × Nat) (items : List ι)
    {later : Dfa} (h : dfa.addTransitions (items.map edge) = .ok later) :
    (items.forM fun i => Edit.addTransition (edge i).1 (edge i).2.1 (edge i).2.2).runOn dfa =
      (.ok (), later) := by
  induction items generalizing dfa with
  | nil =>
      cases h
      rfl
  | cons i items ih =>
      obtain ⟨next, hnext, hrest⟩ := Error.bind_eq_ok_iff.1 h
      show (Edit.addTransition _ _ _ >>= fun _ => items.forM _).runOn dfa = _
      rw [runOn_bind, runOn_addTransition, hnext]
      exact ih hrest

/-- **Completion in place is completion on a copy**, and it is never refused.  So there is no
refusal in the middle of it that could leave the new state behind. -/
theorem runOn_complete (dfa : Dfa) :
    ∃ later dead, dfa.complete = .ok (later, dead) ∧
      Edit.complete.runOn dfa = (.ok dead, later) := by
  unfold complete Edit.complete
  rw [runOn_bind_of_ok (runOn_get dfa)]
  cases hgaps : dfa.missing with
  | nil => exact ⟨dfa, none, rfl, rfl⟩
  | cons gap gaps =>
      obtain ⟨later, hok, -⟩ := dfa.exists_sunk
      unfold sinkEdges at hok
      rw [hgaps] at hok
      refine ⟨later, some dfa.numStates, ?_, ?_⟩
      · show (dfa.addState false).addTransitions _ >>= _ = _
        rw [hok]
        rfl
      · rw [addTransitions_append] at hok
        obtain ⟨looped, hloops, hrest⟩ := Error.bind_eq_ok_iff.1 hok
        calc (Edit.addState false >>= fun dead => _ : Edit _).runOn dfa
          _ = (List.forM _ _ >>= fun _ => _ : Edit _).runOn (dfa.addState false) := rfl
          _ = (List.forM (gap :: gaps) _ >>= fun _ => _ : Edit _).runOn looped :=
            runOn_bind_of_ok (runOn_forM_addTransition _ _ hloops)
          _ = (.ok (some dfa.numStates), later) :=
            runOn_bind_of_ok (runOn_forM_addTransition _ _ hrest)

/-! ### What the requests keep -/

/-- **What one request leaves was built.**  A refused request leaves what was there, and a
completion is a state and some edges.  Naming a start state is the one request that has to be
legal for this. -/
theorem Built.runOn (built : dfa.Built) {request : Request} (legal : request.Legal dfa) :
    (request.edit.runOn dfa).2.Built := by
  cases request with
  | addState accepting => exact built.addState accepting
  | setStart state => exact built.setStart legal
  | setMapping mapping => exact built.setMapping mapping
  | addTransition source c target =>
      show ((Edit.addTransition source c target).runOn dfa).2.Built
      rw [runOn_addTransition]
      cases hadd : dfa.addTransition source c target with
      | ok later => exact built.addTransition hadd
      | error e => exact built
  | complete =>
      obtain ⟨later, dead, hok, hrun⟩ := runOn_complete dfa
      show ((Edit.complete >>= fun _ => pure ()).runOn dfa).2.Built
      rw [runOn_bind_of_ok hrun]
      rcases dfa.complete_ok with ⟨-, hsame⟩ | ⟨-, whole, hwhole, sunk⟩
      · rw [hok] at hsame
        cases hsame
        exact built
      · rw [hok] at hwhole
        cases hwhole
        exact sunk.built built

theorem Built.after (built : dfa.Built) {requests : List Request} (legal : dfa.AllLegal requests) :
    (dfa.after requests).Built := by
  induction requests generalizing dfa with
  | nil => exact built
  | cons request rest ih => exact ih (built.runOn legal.1) legal.2

/-- No state is on file twice with the state that it has an edge to.  An edge is filed only where
its source had none under the symbol, so the source was on no file under it. -/
theorem Built.nodup_predecessors (built : dfa.Built) (t : Nat) (c : Char) :
    (dfa.predecessors t c).Nodup := by
  induction built with
  | withAlphabet alphabet => exact List.nodup_nil
  | addState accepting _ ih =>
      rw [predecessors_addState]
      exact ih
  | @addTransition dfa _ source target b before hadd ih =>
      obtain ⟨-, ht, ⟨-, rfl⟩ | ⟨hnone, rfl⟩⟩ := addTransition_cases hadd
      · exact ih
      · rw [predecessors_file ht]
        split
        case isTrue h =>
          -- a state that had no edge under the symbol was on no file
          have new : source ∉ dfa.predecessors t c := by
            rw [before.mem_predecessors, h.2, hnone]
            nofun
          simpa using ih.concat new
        case isFalse => exact ih
  | setStart _ _ ih => exact ih
  | setMapping _ _ ih => exact ih

/-- **An edge is on file once with the state that it enters**, and nothing else is.  This is the
agreement of the two files in a form that counts. -/
theorem Built.count_predecessors (built : dfa.Built) (s t : Nat) (c : Char) :
    (dfa.predecessors t c).count s = if dfa.transition s c = some t then 1 else 0 := by
  rw [(built.nodup_predecessors t c).count]
  exact if_congr built.mem_predecessors rfl rfl

/-! ### What a new edge changes -/

/-- `dfa.WithEdge s c t later`: the automaton `later` is `dfa` with an edge from `s` to `t` under
`c`.  The edge is on file with both its ends, its symbol is known, and all that can be asked of an
automaton besides has the answer it had. -/
structure WithEdge (dfa : Dfa) (s : Nat) (c : Char) (t : Nat) (later : Dfa) : Prop where
  transition_eq : ∀ q d,
    later.transition q d = if q = s ∧ d = c then some t else dfa.transition q d
  /-- The source is filed behind those that had an edge to the target before. -/
  predecessors_eq : ∀ q d, later.predecessors q d =
    if q = t ∧ d = c then dfa.predecessors q d ++ [s] else dfa.predecessors q d
  mem_alphabet : ∀ d, d ∈ later.alphabet ↔ d = c ∨ d ∈ dfa.alphabet
  numStates_eq : later.numStates = dfa.numStates
  isAccepting_eq : ∀ q, later.isAccepting q = dfa.isAccepting q
  start_eq : later.start = dfa.start
  mapping_eq : later.mapping = dfa.mapping

theorem withEdge_file {s t : Nat} (hs : s < dfa.numStates) (ht : t < dfa.numStates) (c : Char) :
    dfa.WithEdge s c t (dfa.file s c t) where
  transition_eq := transition_file hs c
  predecessors_eq := predecessors_file ht s c
  mem_alphabet d := by
    show d ∈ dfa.alphabet.insert c ↔ _
    rw [Std.ExtTreeSet.mem_insert, Std.LawfulEqCmp.compare_eq_iff_eq, eq_comm]
  numStates_eq := numStates_file dfa s c t
  isAccepting_eq := isAccepting_file dfa s c t
  start_eq := rfl
  mapping_eq := rfl

/-- **A new edge between existing states is granted**, and it is all that is new.  The symbol need
not be known before; it is known afterwards. -/
theorem runOn_addTransition_granted {s t : Nat} {c : Char} (hs : s < dfa.numStates)
    (ht : t < dfa.numStates) (new : dfa.transition s c = none) :
    ∃ later, (Edit.addTransition s c t).runOn dfa = (.ok (), later) ∧
      dfa.WithEdge s c t later := by
  refine ⟨dfa.file s c t, ?_, withEdge_file hs ht c⟩
  rw [runOn_addTransition, addTransition_eq_file hs ht new]

/-! ### The automaton after any number of requests -/

/-- **What holds of an automaton that is changed in place.**  The first three fields are about the
automaton as it is, the others about an edge that is asked for next. -/
structure Consistent (dfa : Dfa) : Prop where
  /-- A state is on file once with the state that it has an edge to, and with no other. -/
  count_predecessors : ∀ s t c,
    (dfa.predecessors t c).count s = if dfa.transition s c = some t then 1 else 0
  /-- An edge joins existing states and carries a symbol of the alphabet. -/
  edge : ∀ s c t, dfa.transition s c = some t →
    s < dfa.numStates ∧ t < dfa.numStates ∧ c ∈ dfa.alphabet
  /-- The count of edges tells whether one is missing. -/
  isComplete_iff : dfa.isComplete = true ↔
    ∀ s, s < dfa.numStates → ∀ c ∈ dfa.alphabet, ∃ t, dfa.transition s c = some t
  /-- An edge is refused iff an end of it is missing or its source has another target already. -/
  refused_iff : ∀ s c t, (∃ e, ((Edit.addTransition s c t).runOn dfa).1 = .error e) ↔
    dfa.numStates ≤ s ∨ dfa.numStates ≤ t ∨ ∃ t', dfa.transition s c = some t' ∧ t' ≠ t
  /-- An edge that is refused changes nothing. -/
  unchanged : ∀ s c t e later,
    (Edit.addTransition s c t).runOn dfa = (.error e, later) → later = dfa
  /-- An edge that is there already is granted and changes nothing. -/
  repeated : ∀ s c t, dfa.transition s c = some t →
    (Edit.addTransition s c t).runOn dfa = (.ok (), dfa)
  /-- An edge from a state that has none under its symbol is granted.  It is there afterwards, and
  nothing else is new. -/
  granted : ∀ s c t, s < dfa.numStates → t < dfa.numStates → dfa.transition s c = none →
    ∃ later, (Edit.addTransition s c t).runOn dfa = (.ok (), later) ∧ dfa.WithEdge s c t later

theorem runOn_addTransition_refused_iff {s t : Nat} {c : Char} :
    (∃ e, ((Edit.addTransition s c t).runOn dfa).1 = .error e) ↔
      dfa.numStates ≤ s ∨ dfa.numStates ≤ t ∨ ∃ t', dfa.transition s c = some t' ∧ t' ≠ t := by
  rw [runOn_addTransition, ← or_assoc]
  unfold addTransition
  by_cases hends : dfa.numStates ≤ s ∨ dfa.numStates ≤ t
  · simp [hends]
  · cases dfa.transition s c with
    | none => simp [hends]
    | some t' => by_cases hsame : t' = t <;> simp [hends, hsame]

theorem runOn_addTransition_unchanged {s t : Nat} {c : Char} {e : Error} {later : Dfa}
    (h : (Edit.addTransition s c t).runOn dfa = (.error e, later)) : later = dfa := by
  rw [runOn_addTransition] at h
  cases hadd : dfa.addTransition s c t with
  | ok next =>
      rw [hadd] at h
      cases h
  | error e =>
      rw [hadd] at h
      cases h
      rfl

theorem WellFormed.runOn_addTransition_repeated (wf : dfa.WellFormed) {s t : Nat} {c : Char}
    (h : dfa.transition s c = some t) :
    (Edit.addTransition s c t).runOn dfa = (.ok (), dfa) := by
  have same : dfa.addTransition s c t = .ok dfa := by
    unfold addTransition
    have hs := lt_of_transition_eq_some h
    have ht := wf.target_lt h
    rw [if_neg (by omega), h]
    exact if_pos rfl
  rw [runOn_addTransition, same]

theorem Built.consistent (built : dfa.Built) : dfa.Consistent where
  count_predecessors := built.count_predecessors
  edge _ _ _ h :=
    ⟨lt_of_transition_eq_some h, built.wellFormed.target_lt h, built.wellFormed.mem_alphabet h⟩
  isComplete_iff := Dfa.isComplete_iff built.wellFormed
  refused_iff _ _ _ := runOn_addTransition_refused_iff
  unchanged _ _ _ _ _ h := runOn_addTransition_unchanged h
  repeated _ _ _ h := built.wellFormed.runOn_addTransition_repeated h
  granted _ _ _ hs ht new := runOn_addTransition_granted hs ht new

/-- **An automaton that is changed in place stays consistent**, whatever is asked for and in
whatever order, refused edges and repeated ones among it.  The one condition on the requests is
that a start state is there when it is named. -/
theorem consistent_after (alphabet : Alphabet) (requests : List Request)
    (legal : (withAlphabet alphabet).AllLegal requests) :
    ((withAlphabet alphabet).after requests).Consistent :=
  ((Built.withAlphabet alphabet).after legal).consistent

/-- An edge without its target, an edge twice and an edge that contradicts it, and then a
completion over the symbol that only these edges have brought in. -/
def disputes : List Request :=
  [.addState false, .addTransition 0 'a' 1, .addState true, .addTransition 0 'a' 1,
    .addTransition 0 'a' 1, .addTransition 0 'a' 0, .setStart 1, .setMapping ∅, .complete]

theorem consistent_after_of_disputes :
    (withAlphabet ∅).AllLegal disputes ∧ ((withAlphabet ∅).after disputes).Consistent :=
  ⟨by decide, consistent_after ∅ disputes (by decide)⟩

end PatternAutomata.Dfa
