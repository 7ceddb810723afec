import Mathlib.Data.List.Forall2
import Mathlib.Data.List.Nodup
import Mathlib.Data.Nat.Basic
import Mathlib.Logic.Relation
import PatternAutomata.Dfa.Survey

/-!
# What a survey finds

A survey that stays within its limit finds the points that can be met from the start, each of them
once, and numbers them breadth first.  A survey that leaves its limit has met more points than the
limit allows.  `TransitionSystem.survey_spec` says that there is no other outcome, and it is all
that later proofs take from here, together with what a finished survey is like
(`TransitionSystem.Surveyed`).

## How the order is recorded

That points are numbered breadth first is hard to say of a survey in the middle of a row.  It is
recorded in one clause, `Underway.order`: before an edge leads to some number, edges have led to
all smaller numbers but zero, where edges come before one another row by row and, in a row, from
left to right.  The clause is kept by every step, since a new point gets the least number that is
not taken.  It speaks of numbers alone, so nothing has to be known about the words that lead to
points until the survey is finished.

## A round is a row

Settling a point numbers the targets of its edges one by one.  `Survey.RowDone` says what the
whole row does to a survey, by induction over the edges, and `TransitionSystem.Underway.step`
takes in such a row as one step.  So the invariant of rounds never sees a survey with half a row.

## Keys

The numbers are filed by key.  Keys have to tell different points apart (`Function.Injective`), or
a new point would be taken for an old one.

## When the limit is left

A refused number means that the point is new and the limit is reached.  Then the points found, all
different, together with the new one are more than the limit (`TransitionSystem.Crowded`), and all
of them can be met.  A ceiling is thus never reported without so many points.
-/

namespace PatternAutomata

variable {σ : Type}

namespace Survey

/-- The numbers are those of the points found, by key: the map and the array are inverse to one
another. -/
def Filed (key : σ → List Nat) (survey : Survey σ) : Prop :=
  ∀ (k : List Nat) (n : Nat), survey.numbers[k]? = some n ↔
    ∃ p, survey.found[n]? = some p ∧ key p = k

/-- A list of edges and their numbered form: the same symbols, and the targets are the
points with these numbers. -/
def Numbered (survey : Survey σ) (edges : List (Char × σ)) (row : List (Char × Nat)) : Prop :=
  List.Forall₂ (fun e r => e.1 = r.1 ∧ survey.found[r.2]? = some e.2) edges row

/-- The points of one survey have the same numbers in another.  Numbers are never given back, so
every later survey is one like this. -/
def Within (survey survey' : Survey σ) : Prop :=
  ∀ (n : Nat) (p : σ), survey.found[n]? = some p → survey'.found[n]? = some p

theorem Within.trans {s₁ s₂ s₃ : Survey σ} (h : s₁.Within s₂) (h' : s₂.Within s₃) :
    s₁.Within s₃ := fun n p hp => h' n p (h n p hp)

theorem Within.size_le {s₁ s₂ : Survey σ} (h : s₁.Within s₂) :
    s₁.found.size ≤ s₂.found.size := by
  by_contra hlt
  have hlast : s₂.found.size < s₁.found.size := Nat.lt_of_not_le hlt
  have := h _ _ (Array.getElem?_eq_getElem hlast)
  rw [Array.getElem?_eq_none (Nat.le_refl _)] at this
  cases this

theorem Numbered.mono {s₁ s₂ : Survey σ} (h : s₁.Within s₂) {edges : List (Char × σ)}
    {row : List (Char × Nat)} (hn : s₁.Numbered edges row) : s₂.Numbered edges row :=
  hn.imp fun _ _ hr => ⟨hr.1, h _ _ hr.2⟩

/-- A point is found under one number at most. -/
theorem Filed.unique {key : σ → List Nat} {survey : Survey σ} (filed : survey.Filed key)
    {i j : Nat} {p : σ} (hi : survey.found[i]? = some p) (hj : survey.found[j]? = some p) :
    i = j := by
  have hi' := (filed (key p) i).2 ⟨p, hi, rfl⟩
  have hj' := (filed (key p) j).2 ⟨p, hj, rfl⟩
  rw [hi', Option.some.injEq] at hj'
  exact hj'

theorem mem_found {survey : Survey σ} {p : σ} :
    p ∈ survey.found.toList ↔ ∃ i : Nat, survey.found[i]? = some p := by
  rw [List.mem_iff_getElem?]
  simp only [Array.getElem?_toList]

/-- The points found are different from each other. -/
theorem Filed.nodup {key : σ → List Nat} {survey : Survey σ} (filed : survey.Filed key) :
    survey.found.toList.Nodup := by
  rw [List.Nodup, List.pairwise_iff_getElem]
  intro i j hi hj hij heq
  have hi' := List.getElem?_eq_getElem hi
  have hj' := List.getElem?_eq_getElem hj
  rw [← heq] at hj'
  rw [Array.getElem?_toList] at hi' hj'
  exact absurd (filed.unique hi' hj') (Nat.ne_of_lt hij)

/-- A target of an edge is among the numbers of the numbered form, and the other way
round. -/
theorem Numbered.mem_iff {survey : Survey σ} {key : σ → List Nat} (filed : survey.Filed key)
    {edges : List (Char × σ)} {row : List (Char × Nat)} (h : survey.Numbered edges row)
    {c : Char} {n : Nat} {p : σ} (hp : survey.found[n]? = some p) :
    (c, n) ∈ row ↔ (c, p) ∈ edges := by
  induction h with
  | nil => simp
  | @cons e r edges row hr _ ih =>
      rw [List.mem_cons, List.mem_cons, ih]
      refine or_congr_left ?_
      obtain ⟨d, q⟩ := e
      obtain ⟨d', m⟩ := r
      obtain ⟨hd, hq⟩ := hr
      rw [Prod.mk.injEq, Prod.mk.injEq]
      constructor
      · rintro ⟨rfl, rfl⟩
        rw [hp, Option.some.injEq] at hq
        exact ⟨hd.symm, hq⟩
      · rintro ⟨rfl, rfl⟩
        exact ⟨hd, filed.unique hp hq⟩

theorem Numbered.exists_of_mem {survey : Survey σ} {edges : List (Char × σ)}
    {row : List (Char × Nat)} (h : survey.Numbered edges row) {c : Char} {n : Nat}
    (hmem : (c, n) ∈ row) : ∃ p, survey.found[n]? = some p ∧ (c, p) ∈ edges := by
  induction h with
  | nil => cases hmem
  | @cons e r edges row hr _ ih =>
      rcases List.mem_cons.1 hmem with rfl | hmem
      · exact ⟨e.2, hr.2, List.mem_cons.2 (Or.inl (Prod.ext hr.1.symm rfl))⟩
      · obtain ⟨p, hp, he⟩ := ih hmem
        exact ⟨p, hp, List.mem_cons_of_mem _ he⟩

theorem Numbered.exists_number {survey : Survey σ} {edges : List (Char × σ)}
    {row : List (Char × Nat)} (h : survey.Numbered edges row) {c : Char} {p : σ}
    (hmem : (c, p) ∈ edges) : ∃ n, survey.found[n]? = some p ∧ (c, n) ∈ row := by
  induction h with
  | nil => cases hmem
  | @cons e r edges row hr _ ih =>
      rcases List.mem_cons.1 hmem with rfl | hmem
      · exact ⟨r.2, hr.2, List.mem_cons.2 (Or.inl (Prod.ext hr.1 rfl))⟩
      · obtain ⟨n, hn, he⟩ := ih hmem
        exact ⟨n, hn, List.mem_cons_of_mem _ he⟩

/-- A point without a number can be given the next one. -/
theorem Filed.push {key : σ → List Nat} {survey : Survey σ} {point : σ}
    (filed : survey.Filed key) (hnew : survey.numbers[key point]? = none) :
    Filed key { survey with
      found := survey.found.push point
      numbers := survey.numbers.insert (key point) survey.found.size } := by
  intro k i
  have fresh : ∀ (i : Nat) p, survey.found[i]? = some p → key p ≠ key point := by
    intro i p hp e
    rw [(filed (key point) i).2 ⟨p, hp, e⟩] at hnew
    cases hnew
  simp only [Std.ExtTreeMap.getElem?_insert, Std.LawfulEqCmp.compare_eq_iff_eq,
    Array.getElem?_push]
  by_cases hkk : key point = k
  · rw [if_pos hkk, Option.some.injEq]
    constructor
    · rintro rfl
      exact ⟨point, by rw [if_pos rfl], hkk⟩
    · rintro ⟨p, hp, rfl⟩
      by_cases hi : i = survey.found.size
      · exact hi.symm
      · rw [if_neg hi] at hp
        exact absurd hkk.symm (fresh i p hp)
  · rw [if_neg hkk, filed]
    by_cases hi : i = survey.found.size
    · subst hi
      simp [hkk]
    · rw [if_neg hi]

/-- **Numbering one point**: it has a number afterwards, and if the number is new it is the next
one.  Nothing that was known before is changed by it. -/
theorem number_some {key : σ → List Nat} (hkey : Function.Injective key) {limit : Nat}
    {survey survey' : Survey σ} {point : σ} {n : Nat} (filed : survey.Filed key)
    (h : survey.number key limit point = some (n, survey')) :
    survey'.Filed key ∧ survey.Within survey' ∧ survey'.rows = survey.rows ∧
      survey'.found[n]? = some point ∧
      (survey' = survey ∨
        n = survey.found.size ∧ survey'.found = survey.found.push point ∧ n < limit) := by
  unfold number at h
  cases hk : survey.numbers[key point]? with
  | some i =>
      simp only [hk, Option.some.injEq, Prod.mk.injEq] at h
      obtain ⟨rfl, rfl⟩ := h
      obtain ⟨p, hp, hkp⟩ := (filed _ _).1 hk
      exact ⟨filed, fun _ _ => id, rfl, hkey hkp ▸ hp, Or.inl rfl⟩
  | none =>
      simp only [hk] at h
      by_cases hlt : survey.found.size < limit
      · rw [if_pos hlt, Option.some.injEq, Prod.mk.injEq] at h
        obtain ⟨rfl, rfl⟩ := h
        refine ⟨filed.push hk, fun i p hp => ?_, rfl, Array.getElem?_push_size,
          Or.inr ⟨rfl, rfl, hlt⟩⟩
        obtain ⟨hi, -⟩ := Array.getElem?_eq_some_iff.1 hp
        rw [Array.getElem?_push, if_neg (by omega)]
        exact hp
      · rw [if_neg hlt] at h
        cases h

/-- A point gets no number only if it is new and the limit is reached. -/
theorem number_none {key : σ → List Nat} {limit : Nat} {survey : Survey σ} {point : σ}
    (filed : survey.Filed key) (h : survey.number key limit point = none) :
    limit ≤ survey.found.size ∧ ∀ i : Nat, survey.found[i]? ≠ some point := by
  unfold number at h
  cases hk : survey.numbers[key point]? with
  | some i =>
      simp only [hk] at h
      cases h
  | none =>
      simp only [hk] at h
      by_cases hlt : survey.found.size < limit
      · rw [if_pos hlt] at h
        cases h
      · refine ⟨Nat.le_of_not_lt hlt, fun i hi => ?_⟩
        rw [(filed _ i).2 ⟨point, hi, rfl⟩] at hk
        cases hk

/-- What numbering the edges of one point does to a survey.  The last two fields say where new
numbers come from: each is in the row, and those below it came before it. -/
structure RowDone (key : σ → List Nat) (limit : Nat) (survey survey' : Survey σ)
    (edges : List (Char × σ)) (row : List (Char × Nat)) : Prop where
  filed : survey'.Filed key
  within : survey.Within survey'
  rows_eq : survey'.rows = survey.rows
  numbered : survey'.Numbered edges row
  size_le : survey.found.size ≤ limit → survey'.found.size ≤ limit
  fresh : ∀ n, survey.found.size ≤ n → n < survey'.found.size → ∃ c, (c, n) ∈ row
  order : ∀ pre c n post, row = pre ++ (c, n) :: post →
    ∀ m, survey.found.size ≤ m → m < n → ∃ d, (d, m) ∈ pre

/-- Numbering one more target before the others. -/
theorem RowDone.cons {key : σ → List Nat} {limit : Nat} {survey survey₁ survey₂ : Survey σ}
    {c : Char} {target : σ} {n : Nat} {rest : List (Char × σ)} {tail : List (Char × Nat)}
    (within : survey.Within survey₁) (rows : survey₁.rows = survey.rows)
    (hn : survey₁.found[n]? = some target)
    (hgrown : survey₁ = survey ∨
      n = survey.found.size ∧ survey₁.found = survey.found.push target ∧ n < limit)
    (done : RowDone key limit survey₁ survey₂ rest tail) :
    RowDone key limit survey survey₂ ((c, target) :: rest) ((c, n) :: tail) := by
  -- `n` is an old number, or the only one by which `survey₁` is larger
  have hold : ∀ m, survey.found.size ≤ m → n ≤ m ∧ (survey₁.found.size ≤ m ∨ m = n) := by
    intro m hm
    rcases hgrown with rfl | ⟨rfl, hpush, -⟩
    · obtain ⟨hlt, -⟩ := Array.getElem?_eq_some_iff.1 hn
      exact ⟨by omega, Or.inl hm⟩
    · rw [hpush, Array.size_push]
      exact ⟨hm, by omega⟩
  refine ⟨done.filed, within.trans done.within, done.rows_eq.trans rows,
    .cons ⟨rfl, done.within _ _ hn⟩ done.numbered, fun hle => done.size_le ?_,
    fun m hm hlt => ?_, fun pre d k post heq m hm hlt => ?_⟩
  · rcases hgrown with rfl | ⟨rfl, hpush, hlt⟩
    · exact hle
    · rw [hpush, Array.size_push]
      exact hlt
  · rcases (hold m hm).2 with hm' | rfl
    · obtain ⟨d, hd⟩ := done.fresh m hm' hlt
      exact ⟨d, List.mem_cons_of_mem _ hd⟩
    · exact ⟨c, List.mem_cons_self⟩
  · cases pre with
    | nil =>
        rw [List.nil_append, List.cons.injEq, Prod.mk.injEq] at heq
        have := (hold m hm).1
        omega
    | cons x pre =>
        rw [List.cons_append, List.cons.injEq] at heq
        obtain ⟨rfl, heq⟩ := heq
        rcases (hold m hm).2 with hm' | rfl
        · obtain ⟨d', hd'⟩ := done.order pre d k post heq m hm' hlt
          exact ⟨d', List.mem_cons_of_mem _ hd'⟩
        · exact ⟨c, List.mem_cons_self⟩

/-- **Numbering the edges of one point.**  Points that are new get the next numbers in the
order of the edges. -/
theorem row_some {key : σ → List Nat} (hkey : Function.Injective key) {limit : Nat}
    {edges : List (Char × σ)} {survey survey' : Survey σ} {row : List (Char × Nat)}
    (filed : survey.Filed key) (h : survey.row key limit edges = some (row, survey')) :
    RowDone key limit survey survey' edges row := by
  induction edges generalizing survey row with
  | nil =>
      rw [Survey.row, Option.some.injEq, Prod.mk.injEq] at h
      obtain ⟨rfl, rfl⟩ := h
      exact ⟨filed, fun _ _ => id, rfl, .nil, id, fun n h h' => absurd h' (by omega), by simp⟩
  | cons e rest ih =>
      obtain ⟨c, target⟩ := e
      unfold Survey.row at h
      cases hnum : survey.number key limit target with
      | none => simp [hnum] at h
      | some r =>
          obtain ⟨n, survey₁⟩ := r
          cases hrest : survey₁.row key limit rest with
          | none => simp [hnum, hrest] at h
          | some r =>
              obtain ⟨tail, survey₂⟩ := r
              simp only [hnum, hrest, Option.some.injEq, Prod.mk.injEq] at h
              obtain ⟨rfl, rfl⟩ := h
              obtain ⟨filed₁, within, rows, hn, hgrown⟩ := number_some hkey filed hnum
              exact .cons within rows hn hgrown (ih filed₁ hrest)

/-- The edges of a point can all be numbered unless some target is new when the limit is reached.
The survey in the middle is given, with the points it has found, since it is their number that
shows the limit to be reached. -/
theorem row_none {key : σ → List Nat} (hkey : Function.Injective key) {limit : Nat}
    {edges : List (Char × σ)} {survey : Survey σ} (filed : survey.Filed key)
    (h : survey.row key limit edges = none) :
    ∃ survey' : Survey σ, survey'.Filed key ∧ limit ≤ survey'.found.size ∧
      (∀ p : σ, (∃ i : Nat, survey'.found[i]? = some p) →
        (∃ i : Nat, survey.found[i]? = some p) ∨ ∃ c, (c, p) ∈ edges) ∧
      ∃ c p, (c, p) ∈ edges ∧ ∀ i : Nat, survey'.found[i]? ≠ some p := by
  induction edges generalizing survey with
  | nil => cases h
  | cons e rest ih =>
      obtain ⟨c, target⟩ := e
      unfold Survey.row at h
      cases hnum : survey.number key limit target with
      -- the refusal comes at this edge: its target is the new one
      | none =>
          obtain ⟨hlimit, hnew⟩ := number_none filed hnum
          exact ⟨survey, filed, hlimit, fun p => Or.inl, c, target, List.mem_cons_self, hnew⟩
      | some r =>
          obtain ⟨n, survey₁⟩ := r
          obtain ⟨filed₁, within₁, rows₁, hn, hgrown⟩ := number_some hkey filed hnum
          cases hrest : survey₁.row key limit rest with
          | some r => simp [hnum, hrest] at h
          | none =>
              obtain ⟨survey', filed', hlimit, hfrom, d, p, hp, hnew⟩ := ih filed₁ hrest
              refine ⟨survey', filed', hlimit, fun q hq => ?_, d, p,
                List.mem_cons_of_mem _ hp, hnew⟩
              -- what was found meanwhile is the target of this edge, and the rest comes by
              -- induction
              rcases hfrom q hq with ⟨i, hi⟩ | ⟨b, hb⟩
              · rcases hgrown with rfl | ⟨rfl, hpush, -⟩
                · exact Or.inl ⟨i, hi⟩
                · rw [hpush, Array.getElem?_push] at hi
                  by_cases hlast : i = survey.found.size
                  · rw [if_pos hlast, Option.some.injEq] at hi
                    exact Or.inr ⟨c, hi ▸ List.mem_cons_self⟩
                  · rw [if_neg hlast] at hi
                    exact Or.inl ⟨i, hi⟩
              · exact Or.inr ⟨b, List.mem_cons_of_mem _ hb⟩

end Survey

namespace TransitionSystem

open Survey

/-- The points that can be met from the start, along edges under any symbols. -/
def Reachable (system : TransitionSystem σ) : σ → Prop :=
  Relation.ReflTransGen (fun p q => ∃ c, (c, q) ∈ system.edges p) system.start

/-- More than `limit` points can be met from the start.  The points are listed, so that none is
counted twice. -/
def Crowded (system : TransitionSystem σ) (limit : Nat) : Prop :=
  ∃ points : List σ, points.Nodup ∧ limit < points.length ∧
    ∀ p ∈ points, system.Reachable p

/-- What holds of a survey before and after every round.  The rows are those of the first points
found, and every number but zero is in one of them or will be. -/
structure Underway (system : TransitionSystem σ) (survey : Survey σ) : Prop where
  filed : survey.Filed system.key
  start : survey.found[0]? = some system.start
  rows_le : survey.rows.size ≤ survey.found.size
  reachable : ∀ (i : Nat) (p : σ), survey.found[i]? = some p → system.Reachable p
  numbered : ∀ (i : Nat) (row : List (Char × Nat)), survey.rows[i]? = some row →
    ∃ p, survey.found[i]? = some p ∧ survey.Numbered (system.edges p) row
  parent : ∀ n, 0 < n → n < survey.found.size →
    ∃ i : Nat, i < n ∧ ∃ row c, survey.rows[i]? = some row ∧ (c, n) ∈ row
  order : ∀ (i : Nat) pre c n post, survey.rows[i]? = some (pre ++ (c, n) :: post) →
    ∀ m, 0 < m → m < n →
      (∃ j : Nat, j < i ∧ ∃ row d, survey.rows[j]? = some row ∧ (d, m) ∈ row) ∨ ∃ d, (d, m) ∈ pre

/-- **What holds of a finished survey**: as before, and all points are settled.  There is a row
for every point then. -/
structure Surveyed (system : TransitionSystem σ) (survey : Survey σ) : Prop
    extends Underway system survey where
  settled : survey.rows.size = survey.found.size

/-- A round that settles a point keeps what holds of a survey. -/
theorem Underway.step {system : TransitionSystem σ} {limit : Nat} {survey survey' : Survey σ}
    {point : σ} {row : List (Char × Nat)} (under : Underway system survey)
    (hpoint : survey.found[survey.rows.size]? = some point)
    (done : RowDone system.key limit survey survey' (system.edges point) row) :
    Underway system { survey' with rows := survey'.rows.push row } := by
  -- a row is one of the old ones or the one that is added
  have hrows : ∀ (i : Nat) r, (survey'.rows.push row)[i]? = some r →
      survey.rows[i]? = some r ∨ (i = survey.rows.size ∧ r = row) := by
    intro i r hr
    rw [Array.getElem?_push, done.rows_eq] at hr
    by_cases hi : i = survey.rows.size
    · rw [if_pos hi, Option.some.injEq] at hr
      exact Or.inr ⟨hi, hr.symm⟩
    · rw [if_neg hi] at hr
      exact Or.inl hr
  have hkept : ∀ (i : Nat) r, survey.rows[i]? = some r → (survey'.rows.push row)[i]? = some r := by
    intro i r hr
    obtain ⟨hi, -⟩ := Array.getElem?_eq_some_iff.1 hr
    rw [Array.getElem?_push, done.rows_eq, if_neg (by omega)]
    exact hr
  have hnew : (survey'.rows.push row)[survey.rows.size]? = some row := by
    rw [Array.getElem?_push, done.rows_eq, if_pos rfl]
  -- in each of the clauses, points and rows are old or new, and what is new comes from this row
  obtain ⟨hlt, -⟩ := Array.getElem?_eq_some_iff.1 hpoint
  have hsize := done.within.size_le
  refine ⟨done.filed, done.within _ _ under.start, ?_, fun i p hp => ?_, fun i r hr => ?_,
    fun n hn hnlt => ?_, fun i pre c n post hr m hm hmn => ?_⟩
  · rw [Array.size_push, done.rows_eq]
    exact Nat.le_trans hlt hsize
  · rcases Nat.lt_or_ge i survey.found.size with hi | hi
    · have hold := done.within _ _ (Array.getElem?_eq_getElem hi)
      have hp' : survey'.found[i]? = some p := hp
      rw [hold, Option.some.injEq] at hp'
      exact under.reachable i p (hp' ▸ Array.getElem?_eq_getElem hi)
    · obtain ⟨hi', -⟩ := Array.getElem?_eq_some_iff.1 hp
      obtain ⟨c, hc⟩ := done.fresh i hi hi'
      exact (under.reachable _ _ hpoint).tail
        ⟨c, (Numbered.mem_iff done.filed done.numbered hp).1 hc⟩
  · rcases hrows i r hr with hr | ⟨rfl, rfl⟩
    · obtain ⟨p, hp, hnum⟩ := under.numbered i r hr
      exact ⟨p, done.within _ _ hp, hnum.mono done.within⟩
    · exact ⟨point, done.within _ _ hpoint, done.numbered⟩
  · rcases Nat.lt_or_ge n survey.found.size with hn' | hn'
    · obtain ⟨i, hi, r, c, hr, hmem⟩ := under.parent n hn hn'
      exact ⟨i, hi, r, c, hkept i r hr, hmem⟩
    · obtain ⟨c, hc⟩ := done.fresh n hn' hnlt
      exact ⟨survey.rows.size, Nat.lt_of_lt_of_le hlt hn', row, c, hnew, hc⟩
  · rcases hrows i _ hr with hr | ⟨rfl, rfl⟩
    · rcases under.order i pre c n post hr m hm hmn with ⟨j, hj, r, d, hr', hmem⟩ | hpre
      · exact Or.inl ⟨j, hj, r, d, hkept j r hr', hmem⟩
      · exact Or.inr hpre
    · rcases Nat.lt_or_ge m survey.found.size with hm' | hm'
      · obtain ⟨j, -, r, d, hr', hmem⟩ := under.parent m hm hm'
        obtain ⟨hj, -⟩ := Array.getElem?_eq_some_iff.1 hr'
        exact Or.inl ⟨j, hj, r, d, hkept j r hr', hmem⟩
      · exact Or.inr (done.order pre c n post rfl m hm' hmn)

/-- Rounds that leave no time for more points finish the survey.  As every round settles a point
and there are at most `limit` of them, the rounds cannot run out early. -/
theorem settle_some {system : TransitionSystem σ} (hkey : Function.Injective system.key)
    {limit rounds : Nat} {survey survey' : Survey σ} (under : Underway system survey)
    (hsize : survey.found.size ≤ limit) (hrounds : limit ≤ survey.rows.size + rounds)
    (h : system.settle limit rounds survey = some survey') :
    Surveyed system survey' ∧ survey'.found.size ≤ limit := by
  induction rounds generalizing survey with
  | zero =>
      rw [settle, Option.some.injEq] at h
      subst h
      have := under.rows_le
      exact ⟨⟨under, by omega⟩, hsize⟩
  | succ rounds ih =>
      unfold settle at h
      cases hpoint : survey.found[survey.rows.size]? with
      | none =>
          simp only [hpoint, Option.some.injEq] at h
          subst h
          have := under.rows_le
          rw [Array.getElem?_eq_none_iff] at hpoint
          exact ⟨⟨under, by omega⟩, hsize⟩
      | some point =>
          cases hrow : survey.row system.key limit (system.edges point) with
          | none => simp [hpoint, hrow] at h
          | some r =>
              obtain ⟨row, survey₁⟩ := r
              simp only [hpoint, hrow] at h
              have done := row_some hkey under.filed hrow
              refine ih (under.step hpoint done) (done.size_le hsize) ?_ h
              rw [Array.size_push, done.rows_eq]
              omega

/-- The points of a survey and one that is not among them are more than the limit, once the
limit is reached. -/
theorem crowded_of_full {system : TransitionSystem σ} {limit : Nat} {survey : Survey σ}
    (filed : survey.Filed system.key) (hlimit : limit ≤ survey.found.size)
    (hreach : ∀ p : σ, (∃ i : Nat, survey.found[i]? = some p) → system.Reachable p)
    {p : σ} (hp : system.Reachable p) (hnew : ∀ i : Nat, survey.found[i]? ≠ some p) :
    system.Crowded limit := by
  refine ⟨p :: survey.found.toList, List.nodup_cons.2 ⟨?_, filed.nodup⟩, ?_, ?_⟩
  · rw [mem_found]
    rintro ⟨i, hi⟩
    exact hnew i hi
  · rw [List.length_cons, Array.length_toList]
    omega
  · intro q hq
    rcases List.mem_cons.1 hq with rfl | hq
    · exact hp
    · exact hreach q (mem_found.1 hq)

theorem settle_none {system : TransitionSystem σ} (hkey : Function.Injective system.key)
    {limit rounds : Nat} {survey : Survey σ} (under : Underway system survey)
    (h : system.settle limit rounds survey = none) : system.Crowded limit := by
  induction rounds generalizing survey with
  | zero => cases h
  | succ rounds ih =>
      unfold settle at h
      cases hpoint : survey.found[survey.rows.size]? with
      | none => simp [hpoint] at h
      | some point =>
          have hreach := under.reachable _ _ hpoint
          cases hrow : survey.row system.key limit (system.edges point) with
          | none =>
              obtain ⟨survey', filed', hlimit, hfrom, c, p, hp, hnew⟩ :=
                row_none hkey under.filed hrow
              refine crowded_of_full filed' hlimit (fun q hq => ?_) (hreach.tail ⟨c, hp⟩) hnew
              rcases hfrom q hq with ⟨i, hi⟩ | ⟨d, hd⟩
              · exact under.reachable i q hi
              · exact hreach.tail ⟨d, hd⟩
          | some r =>
              obtain ⟨row, survey₁⟩ := r
              simp only [hpoint, hrow] at h
              exact ih (under.step hpoint (row_some hkey under.filed hrow)) h

/-- A survey that has found nothing but the start is under way. -/
theorem underway_of_number {system : TransitionSystem σ} (hkey : Function.Injective system.key)
    {limit n : Nat} {survey : Survey σ}
    (h : Survey.empty.number system.key limit system.start = some (n, survey)) :
    Underway system survey ∧ survey.found.size ≤ limit := by
  have filed : (Survey.empty : Survey σ).Filed system.key := by
    intro k i
    simp [Survey.empty]
  obtain ⟨filed', -, hrows, hn, heq | ⟨rfl, hpush, hlt⟩⟩ := number_some hkey filed h
  · subst heq
    simp [Survey.empty] at hn
  · have hfound : survey.found = #[system.start] := by rw [hpush]; rfl
    have hrows' : survey.rows = #[] := by rw [hrows]; rfl
    refine ⟨⟨filed', by simp [hfound], by simp [hrows'], fun i p hp => ?_,
      fun i row hr => by simp [hrows'] at hr, fun n hn hlt => by simp [hfound] at hlt; omega,
      fun i pre c n post hr => by simp [hrows'] at hr⟩, ?_⟩
    · obtain ⟨hi, hp⟩ := Array.getElem?_eq_some_iff.1 hp
      have hi0 : i = 0 := by simpa [hfound] using hi
      subst hi0
      rw [← hp]
      simp only [hfound]
      exact .refl
    · rw [hfound]
      exact hlt

/-- **Every survey is finished or was crowded out.**  In the first case it is within the limit,
and in the second the limit is too low. -/
theorem survey_spec {system : TransitionSystem σ} (hkey : Function.Injective system.key)
    (limit : Nat) :
    (∃ survey, system.survey limit = some survey ∧ Surveyed system survey ∧
      survey.found.size ≤ limit) ∨
    (system.survey limit = none ∧ system.Crowded limit) := by
  unfold TransitionSystem.survey
  cases hnum : Survey.empty.number system.key limit system.start with
  | none =>
      refine Or.inr ⟨rfl, ?_⟩
      have hempty : (Survey.empty : Survey σ).Filed system.key := fun k i => by
        simp [Survey.empty]
      obtain ⟨hlimit, -⟩ := number_none hempty hnum
      refine ⟨[system.start], List.nodup_singleton _, ?_, fun p hp => ?_⟩
      · exact Nat.lt_succ_of_le hlimit
      · rw [List.mem_singleton.1 hp]
        exact .refl
  | some r =>
      obtain ⟨n, survey₀⟩ := r
      obtain ⟨under, hsize⟩ := underway_of_number hkey hnum
      cases hsettle : system.settle limit limit survey₀ with
      | none => exact Or.inr ⟨hsettle, settle_none hkey under hsettle⟩
      | some survey =>
          obtain ⟨done, hle⟩ := settle_some hkey under hsize (Nat.le_add_left ..) hsettle
          exact Or.inl ⟨survey, hsettle, done, hle⟩

/-- The points of a finished survey can all be met, so that there are more of them than any
smaller number. -/
theorem Surveyed.crowded {system : TransitionSystem σ} {survey : Survey σ}
    (done : Surveyed system survey) {n : Nat} (h : n < survey.found.size) : system.Crowded n := by
  refine ⟨survey.found.toList, done.filed.nodup, ?_, fun p hp => ?_⟩
  · rwa [Array.length_toList]
  · obtain ⟨i, hi⟩ := mem_found.1 hp
    exact done.reachable i p hi

/-- The row of a point of a finished survey holds the numbers of the targets of its
edges. -/
theorem Surveyed.row_of_found {system : TransitionSystem σ} {survey : Survey σ}
    (done : Surveyed system survey) {i : Nat} {p : σ} (hp : survey.found[i]? = some p) :
    ∃ row, survey.rows[i]? = some row ∧ survey.Numbered (system.edges p) row := by
  obtain ⟨hi, -⟩ := Array.getElem?_eq_some_iff.1 hp
  rw [← done.settled] at hi
  obtain ⟨q, hq, hnum⟩ := done.numbered i _ (Array.getElem?_eq_getElem hi)
  rw [hp, Option.some.injEq] at hq
  subst hq
  exact ⟨_, Array.getElem?_eq_getElem hi, hnum⟩

/-- **A finished survey has found exactly what can be met from the start.** -/
theorem Surveyed.mem_found_iff {system : TransitionSystem σ} {survey : Survey σ}
    (done : Surveyed system survey) {p : σ} :
    (∃ i : Nat, survey.found[i]? = some p) ↔ system.Reachable p := by
  constructor
  · rintro ⟨i, hi⟩
    exact done.reachable i p hi
  · intro h
    induction h with
    | refl => exact ⟨0, done.start⟩
    | tail _ edge ih =>
        obtain ⟨i, hi⟩ := ih
        obtain ⟨c, hc⟩ := edge
        obtain ⟨row, -, hnum⟩ := done.row_of_found hi
        obtain ⟨n, hn, -⟩ := hnum.exists_number hc
        exact ⟨n, hn⟩

end TransitionSystem

end PatternAutomata
