import PatternAutomata.Proofs.Pattern.Nesting

/-!
# Culprits

Where a pattern is malformed, the offset that is given is that of the character to blame, counted
in the whole pattern, with its anchors (`Nfa.ofPattern_points`).

## Which character is to blame

`Fault.At` says it for every fault: mostly a character that stands at the offset, for a backslash
at the very end that it is not paired with another, and for a range that it descends and which
members it has.  Two faults are never reported where a pattern is
read, and no character is to blame for them.

## An offset is right if it fits the text

The functions of the descent are given an offset along with the rest of a text.  That the one is
where the other stands (`Located`) is kept from call to call, and so every offset that was kept
for later is right as well: the parenthesis or bracket that was opened is still where it was.  The
proof follows the calls of the descent, with one lemma for each function.

## Backslashes are paired from the front

That a backslash at the end of what is read is unpaired, and stands at the end of the whole
pattern, follows only because every rest starts behind whole pairs.  This is the second part of
`Located`.  The anchors need it too, as a dollar behind an unpaired backslash is none.
-/

namespace PatternAutomata

open Error (Yields)
open Regex (Sized)

variable {pattern text : List Char} {offset : Nat} {c : Char}

/-! ### The character to blame -/

/-- **Which character is to blame** for a fault: the parenthesis or bracket that opens what is not
closed, or lies too deep, or is empty or too large; the parenthesis that closes nothing; the sign
of repetition; the caret right behind an opening bracket; the backslash at the very end that is
not paired with another; the first end of a range, or its backslash. -/
def Fault.At (pattern : List Char) (offset : Nat) : Fault → Prop
  | unclosedGroup => pattern[offset]? = some '('
  | strayClosing => pattern[offset]? = some ')'
  | nestedTooDeep _ => pattern[offset]? = some '('
  | nothingToRepeat sign => pattern[offset]? = some sign.char
  | trailingBackslash =>
    pattern[offset]? = some '\\' ∧ offset + 1 = pattern.length ∧ ¬ EndsUnescaped pattern
  | unclosedClass => pattern[offset]? = some '['
  | negatedClass =>
    pattern[offset]? = some '^' ∧ ∃ start, start + 1 = offset ∧ pattern[start]? = some '['
  | emptyClass => pattern[offset]? = some '['
  | classTooLarge _ => pattern[offset]? = some '['
  | descendingRange first last =>
    last < first ∧ ∃ m m' : Member, m.Legal ∧ m'.Legal ∧ m.char = first ∧ m'.char = last ∧
      m.text ++ '-' :: m'.text <+: pattern.drop offset
  | classExpected => False
  | classOverrun => False

theorem lt_length_of_getElem? {list : List Char} {i : Nat} (h : list[i]? = some c) :
    i < list.length :=
  (List.getElem?_eq_some_iff.1 h).1

/-- The character to blame is there, so no fault is blamed on the end of the pattern. -/
theorem Fault.At.lt {fault : Fault} (h : fault.At pattern offset) : offset < pattern.length := by
  cases fault with
  | trailingBackslash => exact lt_length_of_getElem? h.1
  | negatedClass => exact lt_length_of_getElem? h.1
  | descendingRange first last =>
      obtain ⟨-, m, m', -, -, -, -, hprefix⟩ := h
      have hle := hprefix.length_le
      rw [List.length_append, List.length_cons, List.length_drop] at hle
      omega
  | classExpected => exact h.elim
  | classOverrun => exact h.elim
  | _ => exact lt_length_of_getElem? h

/-- A cause that blames the right character of a pattern, if it blames any.  Ceilings and
capacities blame none. -/
def Error.Points (pattern : List Char) : Error → Prop
  | malformed fault offset => fault.At pattern offset
  | _ => True

theorem Error.IsCeiling.points {e : Error} (h : e.IsCeiling) : e.Points pattern := by
  cases e with
  | malformed fault offset => exact h.elim
  | _ => trivial

/-! ### Pairs of backslashes -/

/-- One more character in front is one more backslash at the end only if there is nothing else. -/
theorem length_takeWhile_reverse_cons (c : Char) (text : List Char) :
    ((c :: text).reverse.takeWhile (· == '\\')).length =
      if c = '\\' ∧ (text.reverse.takeWhile (· == '\\')).length = text.length then
        text.length + 1
      else (text.reverse.takeWhile (· == '\\')).length := by
  rw [List.reverse_cons, List.takeWhile_append, List.length_reverse]
  by_cases hall : (text.reverse.takeWhile (· == '\\')).length = text.length
  · by_cases hc : c = '\\' <;> simp [hall, hc]
  · simp [hall]

theorem endsUnescaped_cons (hc : c ≠ '\\') : EndsUnescaped (c :: text) ↔ EndsUnescaped text := by
  rw [endsUnescaped_iff, endsUnescaped_iff, length_takeWhile_reverse_cons, if_neg fun h => hc h.1]

theorem endsUnescaped_pair : EndsUnescaped ('\\' :: c :: text) ↔ EndsUnescaped text := by
  rw [endsUnescaped_iff, endsUnescaped_iff, length_takeWhile_reverse_cons,
    length_takeWhile_reverse_cons, List.length_cons]
  have hle := (List.takeWhile_sublist (l := text.reverse) (· == '\\')).length_le
  rw [List.length_reverse] at hle
  by_cases hmore : c = '\\' ∧ (text.reverse.takeWhile (· == '\\')).length = text.length
  · rw [if_pos hmore, if_pos ⟨rfl, rfl⟩, hmore.2]
    omega
  · rw [if_neg hmore, if_neg]
    rintro ⟨-, h⟩
    omega

theorem not_endsUnescaped_backslash : ¬ EndsUnescaped ['\\'] := by
  rw [endsUnescaped_iff]
  decide

/-! ### The rest of a pattern -/

/-- **A text that is the rest of a pattern**, but for an anchor behind it, and stands at an offset
that no backslash is paired across. -/
structure Located (pattern : List Char) (offset : Nat) (text : List Char) : Prop where
  split : ∃ back, pattern.drop offset = text ++ back ∧ (EndsUnescaped text ∨ back = [])
  unpaired : EndsUnescaped pattern ↔ EndsUnescaped (pattern.drop offset)

namespace Located

theorem getElem? (located : Located pattern offset (c :: text)) : pattern[offset]? = some c := by
  obtain ⟨back, hdrop, -⟩ := located.split
  rw [← List.head?_drop, hdrop]
  rfl

/-- What stands behind a character that is no backslash is the rest of the pattern from the next
offset. -/
theorem tail (located : Located pattern offset (c :: text)) (hc : c ≠ '\\') :
    Located pattern (offset + 1) text := by
  obtain ⟨back, hdrop, hback⟩ := located.split
  have hrest : pattern.drop (offset + 1) = text ++ back := by
    rw [← List.drop_drop, hdrop]
    rfl
  refine ⟨⟨back, hrest, hback.imp_left (endsUnescaped_cons hc).1⟩, ?_⟩
  rw [hrest, located.unpaired, hdrop]
  exact endsUnescaped_cons hc

/-- What stands behind a backslash and the character that it is paired with, two offsets later. -/
theorem escaped (located : Located pattern offset ('\\' :: c :: text)) :
    Located pattern (offset + 2) text := by
  obtain ⟨back, hdrop, hback⟩ := located.split
  have hrest : pattern.drop (offset + 2) = text ++ back := by
    rw [← List.drop_drop, hdrop]
    rfl
  refine ⟨⟨back, hrest, hback.imp_left endsUnescaped_pair.1⟩, ?_⟩
  rw [hrest, located.unpaired, hdrop]
  exact endsUnescaped_pair

/-- A backslash that nothing is left to be paired with is the end of the pattern, even if there
was an anchor to look for. -/
theorem trailingBackslash (located : Located pattern offset ['\\']) :
    Fault.trailingBackslash.At pattern offset := by
  obtain ⟨back, hdrop, hback⟩ := located.split
  obtain rfl := hback.resolve_left not_endsUnescaped_backslash
  rw [List.append_nil] at hdrop
  have hlength := congrArg List.length hdrop
  rw [List.length_drop, List.length_singleton] at hlength
  refine ⟨located.getElem?, by omega, ?_⟩
  rw [located.unpaired, hdrop]
  exact not_endsUnescaped_backslash

/-- **The body of a pattern** is what is left behind its caret, and the dollar that it may be
without is behind it. -/
theorem ofPattern (pattern : List Char) :
    Located pattern (Body.ofPattern pattern).offset (Body.ofPattern pattern).text := by
  have dollar : ∀ text : List Char, ∃ back, text = Body.dropDollar text ++ back ∧
      (EndsUnescaped (Body.dropDollar text) ∨ back = []) := by
    intro text
    rcases Body.withoutDollar_iff.2 (rfl : Body.dropDollar text = _) with ⟨h, hbody⟩ | ⟨h, -⟩
    · exact ⟨['$'], h, .inl hbody⟩
    · exact ⟨[], by rw [List.append_nil, ← h], .inr rfl⟩
  cases pattern with
  | nil => exact ⟨⟨[], rfl, .inr rfl⟩, Iff.rfl⟩
  | cons c rest =>
      by_cases hc : c = '^'
      · subst hc
        exact ⟨dollar rest, endsUnescaped_cons (by decide)⟩
      · rw [Body.ofPattern_of_ne_caret hc]
        exact ⟨dollar (c :: rest), Iff.rfl⟩

end Located

/-! ### Operators -/

namespace Ceiling

variable (ceiling : Ceiling)

/-- An operator is not refused for what the pattern is like, but for a number of states. -/
theorem Hinders.points {r : Regex} {e : Error} (h : ceiling.Hinders r e) : e.Points pattern :=
  h.2.isCeiling.points

theorem union_points (l r : Sized) :
    Yields (Error.Points pattern) (ceiling.union l r) fun _ => True :=
  ((union_yields l r).weaken fun _ => Hinders.points ceiling).mono fun _ _ => trivial

theorem concat_points (l r : Sized) :
    Yields (Error.Points pattern) (ceiling.concat l r) fun _ => True :=
  ((concat_yields l r).weaken fun _ => Hinders.points ceiling).mono fun _ _ => trivial

theorem repeated_points (sign : Quantifier) (r : Sized) :
    Yields (Error.Points pattern) (ceiling.repeated sign r) fun _ => True :=
  ((repeated_yields sign r).weaken fun _ => Hinders.points ceiling).mono fun _ _ => trivial

end Ceiling

/-! ### Classes -/

namespace Descent

/-- A character of a class is read where it stands.  What is left stands behind it, and the text
of the member is what was read. -/
theorem piece_points {start : Nat} (opened : pattern[start]? = some '[')
    (located : Located pattern offset text) :
    Yields (Error.Points pattern) (piece start offset text) fun r =>
      Located pattern r.2.offset r.2.text ∧ ∀ p, r.1 = some p →
        p.offset = offset ∧
          ∃ m : Member, m.Legal ∧ m.char = p.char ∧ text = m.text ++ r.2.text := by
  unfold piece
  split
  case h_1 => exact opened
  case h_2 rest => exact .ok ⟨located.tail (by decide), nofun⟩
  case h_3 c rest =>
    refine .ok ⟨located.escaped, ?_⟩
    rintro _ ⟨⟩
    exact ⟨rfl, ⟨c, true⟩, nofun, rfl, rfl⟩
  case h_4 => exact located.trailingBackslash
  case h_5 c rest hclose hescape hlast =>
    have hc : c ≠ '\\' := by
      rintro rfl
      cases rest with
      | nil => exact hlast rfl rfl
      | cons c rest => exact hescape c rest rfl rfl
    refine .ok ⟨located.tail hc, ?_⟩
    rintro _ ⟨⟩
    exact ⟨rfl, ⟨c, false⟩, fun _ => ⟨fun h => hclose h, hc⟩, rfl, rfl⟩

theorem single_points {size start : Nat} (opened : pattern[start]? = some '[') (members : Alphabet)
    (p : Piece) :
    Yields (Error.Points pattern) ((Item.single p).addTo size start members) fun _ => True := by
  unfold Item.addTo
  show Yields _ (if _ then _ else _) _
  split
  · exact opened
  · exact .ok trivial

/-- A range is read where it stands, so that its first end is to blame if it descends. -/
theorem range_points {size start : Nat} (opened : pattern[start]? = some '[') (members : Alphabet)
    {first last : Piece} (stands : ∃ m m' : Member, m.Legal ∧ m'.Legal ∧ m.char = first.char ∧
      m'.char = last.char ∧ m.text ++ '-' :: m'.text <+: pattern.drop first.offset) :
    Yields (Error.Points pattern) ((Item.range first last).addTo size start members)
      fun _ => True := by
  unfold Item.addTo
  show Yields _ (if _ then _ else if _ then _ else if _ then _ else _) _
  split
  · rename_i hlt
    exact ⟨hlt, stands⟩
  split
  · exact opened
  split
  · exact opened
  · exact .ok trivial

/-- Where a range is told by a dash, the dash is there, and it can be dropped. -/
theorem eq_cons_of_isRange (h : isRange text = true) : text = '-' :: text.tail := by
  unfold isRange at h
  split at h
  · rfl
  · cases h

theorem items_points {size start : Nat} (opened : pattern[start]? = some '[')
    (members : Alphabet) {offset : Nat} {text : List Char} (located : Located pattern offset text) :
    Yields (Error.Points pattern) (items size start members offset text) fun r =>
      Located pattern r.2.offset r.2.text := by
  rw [items]
  refine (piece_points opened located).bind ?_
  rintro ⟨_ | first, rest⟩ ⟨hrest, hfirst⟩
  · exact .ok hrest
  · obtain ⟨hoffset, m, hlegal, hchar, htext⟩ := hfirst first rfl
    have := rest.shorter
    show Yields _ (if isRange rest.text then _ else _) _
    by_cases hrange : isRange rest.text = true
    · rw [if_pos hrange]
      have hdash := eq_cons_of_isRange hrange
      have hbehind : Located pattern (rest.offset + 1) rest.text.tail :=
        (hdash ▸ hrest).tail (by decide)
      refine (piece_points opened hbehind).bind ?_
      rintro ⟨_ | last, after⟩ ⟨hafter, hlast⟩
      · exact opened
      · obtain ⟨-, m', hlegal', hchar', htext'⟩ := hlast last rfl
        have := after.shorter
        have := (List.tail_sublist rest.text).length_le
        refine (range_points opened members ?_).bind fun members _ => ?_
        · obtain ⟨back, hdrop, -⟩ := located.split
          refine ⟨m, m', hlegal, hlegal', hchar, hchar', after.text ++ back, ?_⟩
          -- the range is written where its first end stands: the members that were read, and the
          -- dash between
          calc (m.text ++ '-' :: m'.text) ++ (after.text ++ back)
            _ = m.text ++ '-' :: (m'.text ++ after.text) ++ back := by simp
            _ = m.text ++ '-' :: rest.text.tail ++ back := by rw [← htext']
            _ = text ++ back := by rw [← hdash, ← htext]
            _ = pattern.drop first.offset := by rw [← hdrop, hoffset]
        · exact (items_points opened members hafter).bind fun r hr => .ok hr
    · rw [if_neg hrange]
      refine (single_points opened members first).bind fun members _ => ?_
      exact (items_points opened members hrest).bind fun r hr => .ok hr
termination_by text.length

/-- **A class blames the right character**: its opening bracket, the caret behind it, or something
inside. -/
theorem bracket_points {size start : Nat} (opened : pattern[start]? = some '[')
    (located : Located pattern (start + 1) text) :
    Yields (Error.Points pattern) (bracket size start (start + 1) text) fun r =>
      Located pattern r.2.offset r.2.text := by
  unfold bracket
  by_cases hcaret : text.head? = some '^'
  · rw [if_pos hcaret]
    cases text with
    | nil => cases hcaret
    | cons c text =>
        obtain rfl := Option.some.inj hcaret
        exact ⟨located.getElem?, start, rfl, opened⟩
  · rw [if_neg hcaret]
    refine (items_points opened ∅ located).bind fun r hr => ?_
    show Yields _ (if _ then _ else _) _
    split
    · exact opened
    · exact .ok hr

/-! ### Expressions -/

theorem close_points {n start : Nat} (opened : pattern[start]? = some '(') {rest : Rest n}
    (located : Located pattern rest.offset rest.text) :
    Yields (Error.Points pattern) (rest.close start) fun after =>
      Located pattern after.offset after.text := by
  unfold Rest.close
  by_cases hclosing : rest.text.head? = some ')'
  · rw [if_pos hclosing]
    refine .ok ?_
    have hcons : rest.text = ')' :: rest.text.tail := (List.cons_head?_tail hclosing).symm
    exact (hcons ▸ located).tail (by decide)
  · rw [if_neg hclosing]
    exact opened

theorem repetitions_points (ceiling : Ceiling) (factor : Sized)
    (located : Located pattern offset text) :
    Yields (Error.Points pattern) (repetitions ceiling factor offset text) fun r =>
      Located pattern r.2.offset r.2.text := by
  induction text generalizing factor offset with
  | nil => exact .ok located
  | cons c text ih =>
      rw [repetitions]
      cases hc : Quantifier.ofChar? c with
      | none => exact .ok located
      | some sign =>
          obtain rfl := Quantifier.eq_char_of_ofChar? hc
          have hrest := located.tail (by cases sign <;> decide)
          exact (ceiling.repeated_points sign factor).bind fun grown _ =>
            (ih grown hrest).bind fun r hr => .ok hr

/-- Where a group or a pattern may end: at a parenthesis that closes, or where nothing is left. -/
def EndsGroup (text : List Char) : Prop :=
  ∀ c ∈ text.head?, c = ')'

variable (config : Config) (ceiling : Ceiling) (pattern)

/-- Alternatives blame the right character, and they end where a group may end.  So what a group
is not closed by is the end of the text. -/
def ExpressionPoints (text : List Char) : Prop :=
  ∀ depth offset, Located pattern offset text →
    Yields (Error.Points pattern) (expression config ceiling none depth offset text) fun r =>
      Located pattern r.2.offset r.2.text ∧ EndsGroup r.2.text

/-- So do more alternatives, behind a term, which has to have ended for this. -/
def AlternativesPoints (text : List Char) : Prop :=
  ∀ depth before offset, Located pattern offset text → endsTerm text = true →
    Yields (Error.Points pattern) (alternatives config ceiling none depth before offset text)
      fun r => Located pattern r.2.offset r.2.text ∧ EndsGroup r.2.text

/-- The factors of an alternative blame the right character, and they end where a term ends. -/
def TermPoints (text : List Char) : Prop :=
  ∀ depth front offset, Located pattern offset text →
    Yields (Error.Points pattern) (term config ceiling none depth front offset text) fun r =>
      Located pattern r.2.offset r.2.text ∧ endsTerm r.2.text = true

/-- An atom blames the right character, which may be its first. -/
def AtomPoints (text : List Char) : Prop :=
  ∀ depth c offset, Located pattern offset (c :: text) →
    Yields (Error.Points pattern) (atom config ceiling none depth c offset text) fun r =>
      Located pattern r.2.offset r.2.text

variable {config ceiling pattern}

theorem expressionPoints (hterm : TermPoints pattern config ceiling text)
    (halternatives : ∀ v : List Char, v.length ≤ text.length →
      AlternativesPoints pattern config ceiling v) :
    ExpressionPoints pattern config ceiling text := by
  intro depth offset located
  rw [expression.eq_def]
  refine (hterm depth none offset located).bind fun first hfirst => ?_
  exact (halternatives _ first.2.le depth first.1 _ hfirst.1 hfirst.2).bind fun r hr => .ok hr

theorem alternativesPoints
    (hterm : ∀ v : List Char, v.length < text.length → TermPoints pattern config ceiling v)
    (halternatives : ∀ v : List Char, v.length < text.length →
      AlternativesPoints pattern config ceiling v) :
    AlternativesPoints pattern config ceiling text := by
  intro depth before offset located hends
  rw [alternatives.eq_def]
  split
  · rename_i text
    refine (hterm text (Nat.lt_succ_self _) depth none _ (located.tail (by decide))).bind
      fun next hnext => ?_
    refine (ceiling.union_points before next.1).bind fun whole _ => ?_
    exact (halternatives _ next.2.shorter depth whole _ hnext.1 hnext.2).bind fun r hr => .ok hr
  · rename_i hbar
    refine .ok ⟨located, ?_⟩
    intro c hc
    cases text with
    | nil => cases hc
    | cons d text =>
        obtain rfl := Option.some.inj hc
        rw [endsTerm, Bool.or_eq_true, beq_iff_eq, beq_iff_eq] at hends
        exact hends.resolve_left fun h => hbar text (h ▸ rfl)

theorem atomPoints (hexpression : ExpressionPoints pattern config ceiling text) :
    AtomPoints pattern config ceiling text := by
  intro depth c offset located
  have here := located.getElem?
  rw [atom.eq_def]
  by_cases hopening : c = '('
  · subst hopening
    rw [if_pos rfl]
    refine (hexpression (depth + 1) _ (located.tail (by decide))).bind fun inner hinner => ?_
    exact (close_points here hinner.1).bind fun after hafter => .ok hafter
  by_cases hopen : c = '['
  · subst hopen
    rw [if_neg (by decide), if_pos rfl]
    exact (bracket_points here (located.tail (by decide))).bind fun r hr => .ok hr
  by_cases hdot : c = '.'
  · subst hdot
    rw [if_neg (by decide), if_neg (by decide), if_pos rfl]
    exact .ok (located.tail (by decide))
  by_cases hescape : c = '\\'
  · subst hescape
    rw [if_neg (by decide), if_neg (by decide), if_neg (by decide), if_pos rfl]
    cases text with
    | nil => exact located.trailingBackslash
    | cons c text => exact .ok located.escaped
  rw [if_neg hopening, if_neg hopen, if_neg hdot, if_neg hescape]
  cases hsign : Quantifier.ofChar? c with
  | none => exact .ok (located.tail hescape)
  | some sign =>
      obtain rfl := Quantifier.eq_char_of_ofChar? hsign
      exact here

theorem termPoints
    (hatom : ∀ c v, text = c :: v → AtomPoints pattern config ceiling v)
    (hterm : ∀ v : List Char, v.length < text.length → TermPoints pattern config ceiling v) :
    TermPoints pattern config ceiling text := by
  intro depth front offset located
  rw [term.eq_def]
  cases text with
  | nil => exact .ok ⟨located, rfl⟩
  | cons c text =>
      by_cases hends : endsTerm (c :: text) = true
      · simp only [hends, if_true]
        exact .ok ⟨located, hends⟩
      · simp only [hends, Bool.false_eq_true, if_false]
        refine (hatom c text rfl depth c offset located).bind fun first hfirst => ?_
        refine (repetitions_points ceiling first.1 hfirst).bind fun factor hfactor => ?_
        have shorter : factor.2.text.length < (c :: text).length :=
          Nat.lt_of_le_of_lt factor.2.le first.2.shorter
        have more := fun joined => hterm _ shorter depth (some joined) _ hfactor
        cases front with
        | none => exact (more factor.1).bind fun r hr => .ok hr
        | some front =>
            refine (ceiling.concat_points front factor.1).bind fun joined _ => ?_
            exact (more joined).bind fun r hr => .ok hr

/-- **No function of the descent blames the wrong character**, by induction along their calls. -/
theorem points (text : List Char) :
    ExpressionPoints pattern config ceiling text ∧ AlternativesPoints pattern config ceiling text ∧
      TermPoints pattern config ceiling text ∧ AtomPoints pattern config ceiling text :=
  calls_induction (fun _ => expressionPoints) (fun _ => alternativesPoints) (fun _ => termPoints)
    (fun _ => atomPoints) text

/-- **The check of the depth blames the right character**: a parenthesis that opens, outside of
classes. -/
theorem checkNesting_points (max depth : Nat) (located : Located pattern offset text) :
    Yields (Error.Points pattern) (checkNesting max depth offset text) fun _ => True := by
  have both := checkNesting.mutual_induct max
    (fun depth offset text => Located pattern offset text →
      Yields (Error.Points pattern) (checkNesting max depth offset text) fun _ => True)
    (fun depth offset text => Located pattern offset text →
      Yields (Error.Points pattern) (skipClass max depth offset text) fun _ => True)
  refine (both ?done ?escaped ?bracket ?tooDeep ?opening ?closing ?other ?missing ?member ?close
    ?plain).1 depth offset text located
  case done | missing => exact fun _ _ _ => .ok trivial
  case escaped | member => exact fun _ _ _ _ ih located => ih located.escaped
  case bracket | closing | close => exact fun _ _ _ ih located => ih (located.tail (by decide))
  case tooDeep =>
    intro depth offset rest hlt located
    rw [checkNesting, if_pos hlt]
    exact located.getElem?
  case opening =>
    intro depth offset rest hle ih located
    rw [checkNesting, if_neg hle]
    exact ih (located.tail (by decide))
  case other =>
    intro depth offset c rest hescape hopen hopening hclosing ih located
    rw [checkNesting]
    · -- a backslash that is paired with nothing is the end
      by_cases hc : c = '\\'
      · cases rest with
        | nil => exact .ok trivial
        | cons d rest => exact absurd rfl (hescape d rest hc)
      · exact ih (located.tail hc)
    · exact hescape
    · exact hopen
    · exact hopening
    · exact hclosing
  case plain =>
    intro depth offset c rest hescape hclose ih located
    rw [skipClass]
    · -- a backslash that is paired with nothing is the end
      by_cases hc : c = '\\'
      · cases rest with
        | nil => exact .ok trivial
        | cons d rest => exact absurd rfl (hescape d rest hc)
      · exact ih (located.tail hc)
    · exact hescape
    · exact hclose

/-- **A pattern that is read blames the right character**, and one that closes nothing is blamed
where it stands. -/
theorem pattern_points (located : Located pattern offset text) :
    Yields (Error.Points pattern) (Descent.pattern config ceiling none offset text)
      fun _ => True := by
  refine ((points text).1 0 offset located).bind ?_
  rintro ⟨whole, offset, rest, _⟩ ⟨hrest, hends⟩
  cases rest with
  | nil => exact .ok trivial
  | cons c rest =>
      obtain rfl := hends c rfl
      exact hrest.getElem?

end Descent

/-- **Wherever a pattern is refused for what it is like, the right character is blamed.** -/
theorem Nfa.ofPattern_points (config : Config) (strategy : Strategy) (pattern : List Char) :
    Yields (Error.Points pattern) (ofPattern config strategy pattern) fun _ => True := by
  have located := Located.ofPattern pattern
  rw [ofPattern_eq_descent]
  refine (Descent.checkNesting_points _ 0 located).bind fun _ _ => ?_
  exact (Descent.pattern_points located).bind fun whole _ => .ok trivial

end PatternAutomata
