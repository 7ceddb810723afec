import Mathlib.Data.List.Basic
import PatternAutomata.Alphabet

/-!
# Members of alphabets

An alphabet is a sorted set, and here is what the rest of the development uses of that: no member
is listed twice (`nodup_toList`, which holds of sets of states too), symbols are listed in
ascending order (`Alphabet.pairwise_toList`), and `Alphabet.mem_interval` replaces the list of
code points behind an interval by its two ends.

The size of an interval needs more care.  `Alphabet.size_interval_le` holds of every interval.
`Alphabet.size_interval` has an equation, but only for intervals on one side of the gap among the
code points that hold no characters; an interval across it has fewer symbols than the code points
it spans.  The ceiling on bracket classes counts code points, so this is the difference between
what is counted and what is there.
-/

namespace PatternAutomata

/-- No member of a sorted set is listed twice. -/
theorem nodup_toList {α : Type} {cmp : α → α → Ordering} [Std.TransCmp cmp]
    (a : Std.ExtTreeSet α cmp) : a.toList.Nodup :=
  a.distinct_toList.imp fun h e => h (by rw [e]; exact Std.ReflCmp.compare_self)

namespace Alphabet

/-- The symbols of an alphabet ascend. -/
theorem pairwise_toList (a : Alphabet) : a.toList.Pairwise (· < ·) :=
  a.ordered_toList.imp fun h => compareOfLessAndEq_eq_lt.1 h

theorem exists_mem_of_ne_empty {a : Alphabet} (h : a ≠ ∅) : ∃ c, c ∈ a :=
  Classical.not_forall_not.1 fun hnone => h (Std.ExtTreeSet.eq_empty_iff_forall_not_mem.2 hnone)

theorem mem_intervalList {first last c : Char} :
    c ∈ intervalList first last ↔ first ≤ c ∧ c ≤ last := by
  unfold intervalList
  rw [List.mem_filterMap]
  constructor
  · rintro ⟨code, hcode, hc⟩
    rw [List.mem_range'_1] at hcode
    by_cases hvalid : code.isValidChar
    · rw [dif_pos hvalid] at hc
      cases hc
      rw [Char.le_def, Char.le_def, UInt32.le_iff_toNat_le, UInt32.le_iff_toNat_le]
      change first.toNat ≤ code ∧ code ≤ last.toNat
      omega
    · rw [dif_neg hvalid] at hc
      cases hc
  · rintro ⟨hlo, hhi⟩
    rw [Char.le_def, UInt32.le_iff_toNat_le] at hlo hhi
    change first.toNat ≤ c.toNat at hlo
    change c.toNat ≤ last.toNat at hhi
    refine ⟨c.toNat, List.mem_range'_1.2 ⟨hlo, by omega⟩, ?_⟩
    have hvalid : c.toNat.isValidChar := c.valid
    rw [dif_pos hvalid]
    rfl

/-- **The symbols of an interval are those between its ends.**  The code points that are no
characters have dropped out, since the ends and the symbols are compared as characters. -/
theorem mem_interval {first last c : Char} :
    c ∈ interval first last ↔ first ≤ c ∧ c ≤ last := by
  rw [interval, mem_ofList, mem_intervalList]

/-- An interval has no more symbols than it spans code points. -/
theorem size_interval_le (first last : Char) : (interval first last).size ≤ span first last := by
  have hlist : (intervalList first last).length ≤ last.toNat + 1 - first.toNat := by
    rw [intervalList]
    exact Nat.le_trans (List.length_filterMap_le _ _) (Nat.le_of_eq List.length_range')
  have hset : (interval first last).size ≤ (intervalList first last).length :=
    Std.ExtTreeSet.size_ofList_le
  rw [span]
  omega

/-- An interval with all of its code points on one side of the gap, which holds no characters, has
as many symbols as it spans code points.  The hypothesis cannot be left out: across the gap the
span is greater. -/
theorem size_interval {first last : Char} (hle : first ≤ last)
    (hgap : last < '\ue000' ∨ '\ud7ff' < first) : (interval first last).size = span first last := by
  rw [Char.le_def, UInt32.le_iff_toNat_le] at hle
  change first.toNat ≤ last.toNat at hle
  have hfirst : first.toNat.isValidChar := first.valid
  have hlast : last.toNat.isValidChar := last.valid
  have hside : last.toNat < 0xe000 ∨ 0xd7ff < first.toNat := by
    rw [Char.lt_def, Char.lt_def, UInt32.lt_iff_toNat_lt, UInt32.lt_iff_toNat_lt] at hgap
    exact hgap
  have hcodes : (intervalList first last).map Char.toNat =
      List.range' first.toNat (last.toNat + 1 - first.toNat) := by
    rw [intervalList, List.map_filterMap]
    refine (List.filterMap_congr fun code hcode => ?_).trans List.filterMap_some
    rw [List.mem_range'_1] at hcode
    have hvalid : code.isValidChar := by
      unfold Nat.isValidChar at hfirst hlast ⊢
      omega
    rw [dif_pos hvalid]
    rfl
  have hascending : (intervalList first last).Pairwise fun a b => a.toNat < b.toNat := by
    rw [← List.pairwise_map, hcodes]
    exact List.pairwise_lt_range'
  have hlength := congrArg List.length hcodes
  rw [List.length_map, List.length_range'] at hlength
  rw [interval, ofList, Std.ExtTreeSet.size_ofList, hlength, span]
  · omega
  · refine hascending.imp fun hlt heq => ?_
    rw [Std.LawfulEqCmp.compare_eq_iff_eq] at heq
    exact Nat.lt_irrefl _ (heq ▸ hlt)

end Alphabet

end PatternAutomata
