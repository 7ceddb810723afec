import PatternAutomata.Proofs.Nfa.OfRegex

/-!
# Words that leave a mark

A word leaves a mark on an automaton if a state is active after it that is active after no other
word.  After such a word the active states differ from those after any other word, and so the
deterministic automaton has a state for it alone (`Nfa.Marks.eq_of_active_eq`).  Marks thus give a
lower bound on the number of states the powerset construction needs.

## How marks pass through the operators

The operators copy their operands, and a copy is entered at its start only.  So a state of a copy
is met after the words that lead to it in the operand, with what was read before the copy in front
of them.  In a union nothing is read before either copy, and every mark stays one.  Before the
second operand of a concatenation stands a word of the first; if there is but one such word, marks
stay marks, and otherwise they need not.

## Plain words

A pattern without operators is read as a concatenation that leans to the left (`Regex.SpellsOut`).
Its first operand has exactly one word, so the condition is met at every step, and every beginning
of the word leaves a mark (`Regex.SpellsOut.marks`).  This is where the number of states of a
literal pattern comes from.
-/

namespace PatternAutomata

namespace Nfa

variable {a b nfa : Nfa} {v w : List Char}

/-- The word leads to a state that no other word leads to.  Other states may be active after it as
well. -/
def Marks (nfa : Nfa) (v : List Char) : Prop :=
  ∃ t, nfa.Path nfa.start v t ∧ ∀ u, nfa.Path nfa.start u t → u = v

/-- **The active states tell a word that leaves a mark**: they hold a state that they hold after
no other word. -/
theorem Marks.eq_of_active_eq (marks : nfa.Marks v) (h : nfa.active v = nfa.active w) :
    v = w := by
  obtain ⟨t, path, only⟩ := marks
  have ht := mem_active.2 path
  rw [h, mem_active] at ht
  exact (only w ht).symm

/-! ### A single symbol -/

/-- The edge of a single symbol is read first, and nothing can be read after it. -/
theorem path_oneOf_singleton {c : Char} {t : Nat} :
    (oneOf [c]).Path 0 w t ↔ w = [] ∧ t = 0 ∨ w = [c] ∧ t = 1 := by
  have stuck : ∀ l t, ¬ Leads (oneOf [c]).rows 1 l t := fun l t h =>
    absurd (leads_oneOf.1 h).1 (by decide)
  constructor
  · intro path
    cases path with
    | nil => exact .inl ⟨rfl, rfl⟩
    | silent e =>
        obtain ⟨-, -, b, -, h⟩ := leads_oneOf.1 (mem_silent.1 e)
        cases h
    | symbol e path =>
        obtain ⟨-, rfl, b, hb, h⟩ := leads_oneOf.1 (mem_on.1 e)
        cases h
        obtain ⟨rfl, rfl⟩ := path.of_stuck stuck
        rw [List.mem_singleton.1 hb]
        exact .inr ⟨rfl, rfl⟩
  · rintro (⟨rfl, rfl⟩ | ⟨rfl, rfl⟩)
    · exact .nil 0
    · exact .symbol (mem_on.2 (leads_oneOf.2 ⟨rfl, rfl, c, List.mem_singleton_self c, rfl⟩))
        (.nil 1)

theorem marks_oneOf_nil (c : Char) : (oneOf [c]).Marks [] := by
  refine ⟨0, .nil 0, fun u path => ?_⟩
  exact ((path_oneOf_singleton.1 path).resolve_right fun h => absurd h.2 (by decide)).1

theorem marks_oneOf_symbol (c : Char) : (oneOf [c]).Marks [c] := by
  refine ⟨1, path_oneOf_singleton.2 (.inr ⟨rfl, rfl⟩), fun u path => ?_⟩
  exact ((path_oneOf_singleton.1 path).resolve_left fun h => absurd h.2 (by decide)).1

/-! ### Concatenations -/

/-- A path of a concatenation that ends in the first operand is a path of it, since no edge leads
back into it. -/
theorem path_concat_left (ha : a.WellFormed) (hb : b.WellFormed) {t : Nat} (ht : t < a.numStates)
    (path : (a.concat b).Path a.start w t) : a.Path a.start w t := by
  rw [← Nat.zero_add a.start] at path
  rcases (concat_embeds_left a b).path_cases ha ha.start_lt path with
    ⟨r, rfl, inner⟩ | ⟨u, v, rfl, f, -, -, x, hx, rest⟩
  · rwa [Nat.zero_add]
  · -- beyond the first operand the path does not come back
    rw [List.mem_singleton.1 hx] at rest
    rcases (concat_embeds_right a b).path_cases hb hb.start_lt rest with
      ⟨r, rfl, -⟩ | ⟨_, _, -, _, -, -, x, hx, -⟩
    · omega
    · cases hx

/-- A path of a concatenation that ends in the second operand reads a word of the first before. -/
theorem path_concat_right (ha : a.WellFormed) (hb : b.WellFormed) {t : Nat}
    (path : (a.concat b).Path a.start w (a.numStates + t)) :
    ∃ u v, w = u ++ v ∧ a.accepts u = true ∧ b.Path b.start v t := by
  rw [← Nat.zero_add a.start] at path
  obtain ⟨u, v, rfl, hu, x, hx, rest⟩ :=
    (concat_embeds_left a b).accepts_of_path ha path (by omega)
  rw [List.mem_singleton.1 hx] at rest
  rcases (concat_embeds_right a b).path_cases hb hb.start_lt rest with
    ⟨r, hr, inner⟩ | ⟨_, _, -, _, -, -, x, hx, -⟩
  · obtain rfl : t = r := by omega
    exact ⟨u, v, rfl, hu, inner⟩
  · cases hx

theorem Marks.concat_left (ha : a.WellFormed) (hb : b.WellFormed) (marks : a.Marks v) :
    (a.concat b).Marks v := by
  obtain ⟨t, path, only⟩ := marks
  have ht := ha.path_lt path ha.start_lt
  have outer := (concat_embeds_left a b).path ha path ha.start_lt
  rw [Nat.zero_add, Nat.zero_add] at outer
  exact ⟨t, outer, fun u h => only u (path_concat_left ha hb ht h)⟩

theorem Marks.concat_right (ha : a.WellFormed) (hb : b.WellFormed) {x : List Char}
    (single : ∀ u, a.accepts u = true ↔ u = x) (marks : b.Marks v) :
    (a.concat b).Marks (x ++ v) := by
  obtain ⟨t, path, only⟩ := marks
  have inner := (concat_embeds_right a b).path hb path hb.start_lt
  have outer := (concat_embeds_left a b).path_of_accepts ha ((single x).2 rfl)
    (List.mem_singleton_self _) inner
  rw [Nat.zero_add] at outer
  refine ⟨a.numStates + t, outer, fun u h => ?_⟩
  obtain ⟨u, v', rfl, hu, hv⟩ := path_concat_right ha hb h
  rw [(single u).1 hu, only v' hv]

/-! ### Unions -/

/-- A path of a union that ends in an operand is a path of that operand.  The start and the
accepting state of the union are in neither and are excluded. -/
theorem path_union (ha : a.WellFormed) (hb : b.WellFormed) {t : Nat} (hpos : 0 < t)
    (hlt : t < 1 + a.numStates + b.numStates) (path : (a.union b).Path 0 w t) :
    (∃ r, t = 1 + r ∧ a.Path a.start w r) ∨
      ∃ r, t = 1 + a.numStates + r ∧ b.Path b.start w r := by
  -- the exits of both copies are the accepting state, from which nothing leads on
  have final : ∀ {v}, ¬ (a.union b).Path (1 + a.numStates + b.numStates) v t := by
    intro v rest
    have := (rest.of_stuck (union_stuck ha hb)).2
    omega
  obtain ⟨x, hx, path⟩ := path.of_fork (fun _ _ => union_fork) (Nat.ne_of_gt hpos)
  rcases List.mem_pair.1 hx with rfl | rfl
  · rcases (union_embeds_left a b).path_cases ha ha.start_lt path with
      ⟨r, rfl, inner⟩ | ⟨u, v, -, f, -, -, x, hx, rest⟩
    · exact .inl ⟨r, rfl, inner⟩
    · rw [List.mem_singleton.1 hx] at rest
      exact absurd rest final
  · rcases (union_embeds_right ha b).path_cases hb hb.start_lt path with
      ⟨r, rfl, inner⟩ | ⟨u, v, -, f, -, -, x, hx, rest⟩
    · exact .inr ⟨r, rfl, inner⟩
    · rw [List.mem_singleton.1 hx] at rest
      exact absurd rest final

theorem Marks.union_left (ha : a.WellFormed) (hb : b.WellFormed) (marks : a.Marks v) :
    (a.union b).Marks v := by
  obtain ⟨t, path, only⟩ := marks
  have ht := ha.path_lt path ha.start_lt
  refine ⟨1 + t, ?_, fun u h => ?_⟩
  · exact .silent (mem_silent.2 (leads_union.2 (.inl ⟨rfl, rfl, .inl rfl⟩)))
      ((union_embeds_left a b).path ha path ha.start_lt)
  · rcases path_union ha hb (by omega) (by omega) h with ⟨r, hr, inner⟩ | ⟨r, hr, inner⟩
    · obtain rfl : t = r := by omega
      exact only u inner
    · omega

theorem Marks.union_right (ha : a.WellFormed) (hb : b.WellFormed) (marks : b.Marks v) :
    (a.union b).Marks v := by
  obtain ⟨t, path, only⟩ := marks
  have ht := hb.path_lt path hb.start_lt
  refine ⟨1 + a.numStates + t, ?_, fun u h => ?_⟩
  · exact .silent (mem_silent.2 (leads_union.2 (.inl ⟨rfl, rfl, .inr rfl⟩)))
      ((union_embeds_right ha b).path hb path hb.start_lt)
  · rcases path_union ha hb (by omega) (by omega) h with ⟨r, hr, inner⟩ | ⟨r, hr, inner⟩
    · have := ha.path_lt inner ha.start_lt
      omega
    · obtain rfl : t = r := by omega
      exact only u inner

end Nfa

/-! ### Words -/

namespace Regex

variable {r : Regex} {v w : List Char}

/-- `r.SpellsOut w`: the tree is the one that a word of plain characters is read as, symbol after
symbol.  It leans to the left as the reader joins what it reads to what it has. -/
inductive SpellsOut : Regex → List Char → Prop where
  | symbol (c : Char) : SpellsOut (.oneOf (.ofList [c])) [c]
  | more {r : Regex} {w : List Char} (c : Char) : SpellsOut r w →
      SpellsOut (.concat r (.oneOf (.ofList [c]))) (w ++ [c])

theorem toNfa_oneOf_singleton (c : Char) : toNfa (.oneOf (.ofList [c])) = Nfa.oneOf [c] := rfl

theorem SpellsOut.matches_iff (h : r.SpellsOut w) : r.Matches v ↔ v = w := by
  induction h generalizing v with
  | symbol c => simp [matches_oneOf, Alphabet.mem_ofList]
  | more c _ ih => simp [matches_concat, matches_oneOf, Alphabet.mem_ofList, ih]

/-- **Every beginning of a word leaves a mark** on the automaton of the word, the empty one and
the whole word among them. -/
theorem SpellsOut.marks (h : r.SpellsOut w) (hv : v <+: w) : r.toNfa.Marks v := by
  induction h generalizing v with
  | symbol c =>
      rw [toNfa_oneOf_singleton]
      rcases List.prefix_cons_iff.1 hv with rfl | ⟨u, rfl, hu⟩
      · exact Nfa.marks_oneOf_nil c
      · rw [List.prefix_nil.1 hu]
        exact Nfa.marks_oneOf_symbol c
  | @more r w c hr ih =>
      have last := Nfa.WellFormed.oneOf [c]
      rw [toNfa, toNfa_oneOf_singleton]
      rcases List.prefix_concat_iff.1 hv with rfl | hv
      · refine .concat_right r.wellFormed_toNfa last (fun u => ?_) (Nfa.marks_oneOf_symbol c)
        rw [accepts_toNfa, hr.matches_iff]
      · exact (ih hv).concat_left r.wellFormed_toNfa last

end Regex

end PatternAutomata
