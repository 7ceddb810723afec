import PatternAutomata.Nfa.OfRegex
import PatternAutomata.Proofs.Pattern.Descent
import PatternAutomata.Proofs.Pattern.Reading
import PatternAutomata.Proofs.Pattern.Refusals

/-!
# The depth of groups

The depth of groups is checked before a pattern is read, from the parentheses alone.  If the check
passes, no reading ever has more groups open than it allows, and a limit on them makes no
difference.  A pattern of the grammar passes unless its groups lie too deep within one another.
`Nfa.ofPattern_nesting` says all of this.

## Parentheses are told from characters as from tokens

The check does not read a pattern.  It skips what is escaped or in a class, and counts the other
parentheses; a class is skipped to the first closing bracket that is not escaped, and this is
where its token ends (`Descent.checkNesting_eq`).

## The check and the reading count alike

A token changes the number of open groups in the same way for both, but for a closing parenthesis
that closes nothing: the check passes it over, and a reading stops there (`Token.deepen`).  So the
number of groups a reading has open is known from the tokens before, and the limit of a
descent is never met (`Assembly.runWithin_of_checkDepth`).

## Which parenthesis is named

Of several groups that lie too deep, the check names the first one in the text.  A derivation
lists where its groups open in the order of the text (`Derivation.openings`), so the first in the
list is the least offset (`Derivation.checkNesting_cases`).
-/

namespace PatternAutomata

open Error (RefusedOnly)
open Regex (Sized)

/-! ### Parentheses among characters -/

theorem Token.eq_of_ofChar_opening {c : Char} (h : ofChar c = opening) : c = '(' := by
  have hsigned := signed_ofChar c
  rw [h] at hsigned
  cases hsigned
  rfl

theorem Token.eq_of_ofChar_closing {c : Char} (h : ofChar c = closing) : c = ')' := by
  have hsigned := signed_ofChar c
  rw [h] at hsigned
  cases hsigned
  rfl

/-- Other signs have no bearing on the depth. -/
theorem Assembly.checkDepth_of_ne {max depth offset : Nat} {token : Token}
    (hopening : token ≠ .opening) (hclosing : token ≠ .closing) (rest : List (Nat × Token)) :
    checkDepth max depth ((offset, token) :: rest) = checkDepth max depth rest := by
  cases token with
  | opening => exact absurd rfl hopening
  | closing => exact absurd rfl hclosing
  | _ => rfl

/-- **Parentheses are told from characters as from tokens**: the same are escaped or in a class. -/
theorem Descent.checkNesting_eq (max depth offset : Nat) (text : List Char) :
    checkNesting max depth offset text =
      Assembly.checkDepth max depth (Token.scan offset text) := by
  -- inside a class the tokens depend on the pieces before, so the second statement is for all of
  -- them
  have both := checkNesting.mutual_induct max
    (fun depth offset text => checkNesting max depth offset text =
      Assembly.checkDepth max depth (Token.scan offset text))
    (fun depth offset text => ∀ start before, skipClass max depth offset text =
      Assembly.checkDepth max depth (Token.scanBracket start before offset text))
  refine (both ?nil ?escaped ?bracket ?tooDeep ?opening ?closing ?other ?missing ?member ?close
    ?plain).1 depth offset text
  case nil =>
    intro depth offset
    rw [Token.scan_nil]
    rfl
  case escaped =>
    intro depth offset c rest ih
    rw [checkNesting, Token.scan_escaped, ih]
    rfl
  case bracket =>
    intro depth offset rest ih
    rw [checkNesting, Token.scan, ih offset []]
  case tooDeep =>
    intro depth offset rest hlt
    rw [checkNesting, Token.scan_char (by decide) (by decide), if_pos hlt]
    exact (if_pos hlt).symm
  case opening =>
    intro depth offset rest hle ih
    rw [checkNesting, Token.scan_char (by decide) (by decide), if_neg hle, ih]
    exact (if_neg hle).symm
  case closing =>
    intro depth offset rest ih
    rw [checkNesting, Token.scan_char (by decide) (by decide), ih]
    rfl
  case other =>
    intro depth offset c rest hescape hopen hopening hclosing ih
    have hskip : checkNesting max depth offset (c :: rest) =
        checkNesting max depth (offset + 1) rest := by
      rw [checkNesting]
      · exact hescape
      · exact hopen
      · exact hopening
      · exact hclosing
    rw [hskip, ih]
    -- a backslash with something behind it was dealt with above, so this one is the last character
    by_cases hc : c = '\\'
    · subst hc
      cases rest with
      | nil =>
          rw [Token.scan_nil, Token.scan]
          rfl
      | cons c rest => exact absurd rfl (hescape c rest rfl)
    · rw [Token.scan_char hc hopen, Assembly.checkDepth_of_ne]
      · exact fun h => hopening (Token.eq_of_ofChar_opening h)
      · exact fun h => hclosing (Token.eq_of_ofChar_closing h)
  case missing =>
    intro depth offset start before
    rw [Token.scanBracket]
    rfl
  case member =>
    intro depth offset c rest ih start before
    rw [skipClass, Token.scanBracket, ih start]
  case close =>
    intro depth offset rest ih start before
    rw [skipClass, Token.scanBracket, ih]
    rfl
  case plain =>
    intro depth offset c rest hescape hclose ih start before
    have hskip : skipClass max depth offset (c :: rest) =
        skipClass max depth (offset + 1) rest := by
      rw [skipClass]
      · exact hescape
      · exact hclose
    rw [hskip]
    by_cases hc : c = '\\'
    · subst hc
      cases rest with
      | nil =>
          rw [Token.scanBracket, skipClass]
          rfl
      | cons c rest => exact absurd rfl (hescape c rest rfl)
    · rw [Token.scanBracket_char hc hclose, ih start]

/-! ### Open groups -/

/-- How many groups are open after a token, if `depth` are open before it.  A parenthesis that
closes nothing leaves none open. -/
def Token.deepen (depth : Nat) : Token → Nat
  | opening => depth + 1
  | closing => depth - 1
  | _ => depth

namespace Assembly

variable {max : Nat} {config : Config} {ceiling : Ceiling} {a next : Assembly}

/-- What the check has found out about a token when it passes: there was room for the group that
it opens, and the rest passes as well. -/
theorem checkDepth_cons {depth offset : Nat} {token : Token} {rest : List (Nat × Token)}
    (h : checkDepth max depth ((offset, token) :: rest) = .ok ()) :
    (token = .opening → depth < max) ∧ checkDepth max (token.deepen depth) rest = .ok () := by
  cases token with
  | opening =>
      rw [checkDepth] at h
      by_cases hlt : max < depth + 1
      · rw [if_pos hlt] at h
        cases h
      · rw [if_neg hlt] at h
        exact ⟨fun _ => Nat.not_lt.1 hlt, h⟩
  | _ => exact ⟨by rintro ⟨⟩, h⟩

theorem addChoice_outer {symbols : Except Error Alphabet}
    (h : a.addChoice ceiling symbols = .ok next) : next.outer = a.outer := by
  obtain ⟨level, -, h⟩ := Error.bind_eq_ok_iff.1 h
  obtain ⟨symbols, -, h⟩ := Error.bind_eq_ok_iff.1 h
  cases h
  rfl

/-- **A token that is taken in changes the number of open groups** as it does for the check. -/
theorem length_outer_of_step {offset : Nat} {token : Token}
    (h : a.step config ceiling (offset, token) = .ok next) :
    next.outer.length = token.deepen a.outer.length := by
  -- only the parentheses change how many groups wait; any other token replaces the level alone
  cases token with
  | symbol c => rw [addChoice_outer h]; rfl
  | dot => rw [addChoice_outer h]; rfl
  | bracket b => rw [addChoice_outer h]; rfl
  | dangling => rw [addChoice_outer h]; rfl
  | opening =>
      obtain ⟨level, -, h⟩ := Error.bind_eq_ok_iff.1 h
      cases h
      rfl
  | bar =>
      obtain ⟨whole, -, h⟩ := Error.bind_eq_ok_iff.1 h
      cases h
      rfl
  | closing =>
      obtain ⟨group, -, h⟩ := Error.bind_eq_ok_iff.1 h
      obtain ⟨level, outer⟩ := a
      cases outer with
      | nil => cases h
      | cons around outer =>
          cases h
          rfl
  | repetition sign =>
      rw [step] at h
      cases hlast : a.level.last with
      | none =>
          rw [hlast] at h
          cases h
      | some factor =>
          rw [hlast] at h
          obtain ⟨grown, -, h⟩ := Error.bind_eq_ok_iff.1 h
          cases h
          rfl

/-- If the check passes, a token is taken in whether or not there is a limit. -/
theorem stepWithin_eq_step {offset : Nat} {token : Token}
    (hroom : token = .opening → a.outer.length < max) :
    a.stepWithin (some max) config ceiling (offset, token) =
      a.step config ceiling (offset, token) := by
  cases token with
  | opening =>
      have henter : Descent.enter (some max) a.outer.length offset = .ok () :=
        if_neg (Nat.not_lt.2 (hroom rfl))
      rw [stepWithin, step]
      simp only [henter, Error.ok_bind]
  | _ => rfl

/-- **After the check no limit is met**: a reading with a limit on open groups is a reading
without, refusals for other causes included. -/
theorem runWithin_of_checkDepth {tokens : List (Nat × Token)}
    (h : checkDepth max a.outer.length tokens = .ok ()) :
    a.runWithin (some max) config ceiling tokens = a.run config ceiling tokens := by
  induction tokens generalizing a with
  | nil => rfl
  | cons token tokens ih =>
      obtain ⟨offset, token⟩ := token
      obtain ⟨hroom, hrest⟩ := checkDepth_cons h
      rw [runWithin_cons, stepWithin_eq_step hroom, run, List.foldlM_cons, bind_assoc]
      cases hstep : a.step config ceiling (offset, token) with
      | error error => rfl
      | ok next => exact ih (length_outer_of_step hstep ▸ hrest)

/-- **No reading ever has more groups open than the check allows**, at any place of the pattern
that it gets to. -/
theorem length_outer_le {front back : List (Nat × Token)} (hle : a.outer.length ≤ max)
    (h : checkDepth max a.outer.length (front ++ back) = .ok ())
    (hfold : front.foldlM (step config ceiling) a = .ok next) : next.outer.length ≤ max := by
  induction front generalizing a with
  | nil =>
      cases hfold
      exact hle
  | cons token front ih =>
      obtain ⟨offset, token⟩ := token
      obtain ⟨hroom, hrest⟩ := checkDepth_cons h
      rw [List.foldlM_cons] at hfold
      obtain ⟨middle, hstep, hfold⟩ := Error.bind_eq_ok_iff.1 hfold
      have hlength := length_outer_of_step hstep
      refine ih ?_ (hlength ▸ hrest) hfold
      rw [hlength]
      cases token with
      | opening => exact hroom rfl
      | closing => exact (Nat.sub_le _ _).trans hle
      | _ => exact hle

end Assembly

/-! ### Groups of a derivation -/

/-- An opening parenthesis stands at `start`, in a text that stands at `offset`. -/
def OpensAt (offset : Nat) (text : List Char) (start : Nat) : Prop :=
  ∃ i, start = offset + i ∧ text[i]? = some '('

namespace OpensAt

variable {offset start : Nat} {front back : List Char}

theorem le (h : OpensAt offset front start) : offset ≤ start := by
  obtain ⟨i, rfl, -⟩ := h
  exact Nat.le_add_right _ _

theorem lt (h : OpensAt offset front start) : start < offset + front.length := by
  obtain ⟨i, rfl, hi⟩ := h
  exact Nat.add_lt_add_left (List.getElem?_eq_some_iff.1 hi).1 offset

theorem append_left (h : OpensAt offset front start) : OpensAt offset (front ++ back) start := by
  obtain ⟨i, heq, hi⟩ := h
  exact ⟨i, heq, (List.getElem?_append_left (List.getElem?_eq_some_iff.1 hi).1).trans hi⟩

theorem append_right (h : OpensAt (offset + front.length) back start) :
    OpensAt offset (front ++ back) start := by
  obtain ⟨i, heq, hi⟩ := h
  refine ⟨front.length + i, heq.trans (Nat.add_assoc _ _ _), ?_⟩
  rw [List.getElem?_append_right (Nat.le_add_right _ _), Nat.add_sub_cancel_left, hi]

theorem cons {c : Char} (h : OpensAt (offset + 1) back start) :
    OpensAt offset (c :: back) start := by
  show OpensAt offset ([c] ++ back) start
  exact append_right h

end OpensAt

namespace Derivation

/-- Groups open at opening parentheses, and at none that is escaped or in a class. -/
theorem opensAt {k : Category} (d : Derivation k) {offset outside : Nat}
    {opening : Nat × Nat} (h : opening ∈ d.openings offset outside) :
    OpensAt offset d.text opening.1 := by
  induction d generalizing offset outside with
  | alternative t ih => exact ih h
  | either e t ihe iht =>
      rcases List.mem_append.1 h with h | h
      · exact (ihe h).append_left
      · exact .append_right (iht h).cons
  | nothing => cases h
  | sequence fs ih => exact ih h
  | one f ih => exact ih h
  | more fs f ihfs ihf =>
      rcases List.mem_append.1 h with h | h
      · exact (ihfs h).append_left
      · exact .append_right (ihf h)
  | once a ih => exact ih h
  | repeated f sign ih => exact (ih h).append_left
  | plain c hc => cases h
  | escaped c => cases h
  | dot => cases h
  | bracket cls => cases h
  | group e ih =>
      rcases List.mem_cons.1 h with rfl | h
      · exact ⟨0, rfl, rfl⟩
      · exact (ih h).append_left.cons

/-- Groups are listed in the order of the text, a group before those inside it. -/
theorem openings_sorted {k : Category} (d : Derivation k) (offset outside : Nat) :
    (d.openings offset outside).Pairwise (·.1 < ·.1) := by
  induction d generalizing offset outside with
  | alternative t ih => exact ih offset outside
  | either e t ihe iht =>
      refine List.pairwise_append.2 ⟨ihe _ _, iht _ _, fun before h after h' => ?_⟩
      exact (e.opensAt h).lt.trans (Nat.lt_of_succ_le (t.opensAt h').le)
  | nothing => exact .nil
  | sequence fs ih => exact ih offset outside
  | one f ih => exact ih offset outside
  | more fs f ihfs ihf =>
      refine List.pairwise_append.2 ⟨ihfs _ _, ihf _ _, fun before h after h' => ?_⟩
      exact (fs.opensAt h).lt.trans_le (f.opensAt h').le
  | once a ih => exact ih offset outside
  | repeated f sign ih => exact ih offset outside
  | plain c hc => exact .nil
  | escaped c => exact .nil
  | dot => exact .nil
  | bracket cls => exact .nil
  | group e ih =>
      refine List.pairwise_cons.2 ⟨fun after h => ?_, ih _ _⟩
      exact Nat.lt_of_succ_le (e.opensAt h).le

/-- The group that is found to lie too deep opens before all others that do. -/
theorem le_of_find?_openings {k : Category} (d : Derivation k) {max offset outside : Nat}
    {opening other : Nat × Nat}
    (hfind : (d.openings offset outside).find? (max < ·.2) = some opening)
    (hother : other ∈ d.openings offset outside) (hlt : max < other.2) :
    opening.1 ≤ other.1 := by
  obtain ⟨-, before, after, heq, hbefore⟩ := List.find?_eq_some_iff_append.1 hfind
  have hsorted := d.openings_sorted offset outside
  rw [heq] at hother hsorted
  rcases List.mem_append.1 hother with hother | hother
  · have hpassed := hbefore other hother
    simp [hlt] at hpassed
  · rcases List.mem_cons.1 hother with rfl | hother
    · exact Nat.le_refl _
    · exact (List.rel_of_pairwise_cons (List.pairwise_append.1 hsorted).2.1 hother).le

/-- **The check refuses the first group that lies too deep**, if one does, and passes otherwise. -/
theorem checkNesting_cases {k : Category} (d : Derivation k) (max offset : Nat) :
    (d.depth ≤ max ∧ Descent.checkNesting max 0 offset d.text = .ok ()) ∨
    (max < d.depth ∧ ∃ opening ∈ d.openings offset 0, max < opening.2 ∧
      (∀ other ∈ d.openings offset 0, max < other.2 → opening.1 ≤ other.1) ∧
      Descent.checkNesting max 0 offset d.text =
        .error (.malformed (.nestedTooDeep max) opening.1)) := by
  have hexists := d.exists_opening_iff (Nat.zero_le max) offset
  have hcheck := Assembly.checkDepth_text d max 0 offset []
  rw [Nat.zero_add] at hexists
  rw [List.append_nil] at hcheck
  rw [Descent.checkNesting_eq, hcheck]
  cases hfind : (d.openings offset 0).find? (max < ·.2) with
  | none =>
      refine .inl ⟨Nat.not_lt.1 fun hlt => ?_, rfl⟩
      obtain ⟨opening, hopening, hdeep⟩ := hexists.2 hlt
      exact absurd (decide_eq_true hdeep) (List.find?_eq_none.1 hfind opening hopening)
  | some opening =>
      have hdeep := List.find?_some hfind
      rw [decide_eq_true_eq] at hdeep
      have hopening : opening ∈ d.openings offset 0 := List.mem_of_find?_eq_some hfind
      refine .inr ⟨hexists.1 ⟨opening, hopening, hdeep⟩, opening, hopening, hdeep, ?_, rfl⟩
      exact fun other hother hlt => d.le_of_find?_openings hfind hother hlt

end Derivation

/-! ### Patterns -/

namespace Descent

variable {max offset : Nat} {text : List Char} {config : Config} {ceiling : Ceiling}

/-- Without a limit no pattern is refused for the depth of groups. -/
theorem refused_pattern : RefusedOnly ceiling.strategy.MayMeet
    (pattern config ceiling none offset text) := by
  rw [pattern_eq, Assembly.runWithin_none]
  exact Assembly.refused_run config ceiling .start _

/-- If the check passes, a limit makes no difference to what is read or what is refused. -/
theorem pattern_of_checkNesting (h : checkNesting max 0 offset text = .ok ()) :
    pattern config ceiling (some max) offset text = pattern config ceiling none offset text := by
  rw [checkNesting_eq] at h
  rw [pattern_eq, pattern_eq, Assembly.runWithin_none]
  exact Assembly.runWithin_of_checkDepth h

/-- If the check passes, no reading ever has more groups open than it allows.  The reading may be
stopped anywhere, so it is cut after any number of tokens. -/
theorem length_outer_le_of_checkNesting (h : checkNesting max 0 offset text = .ok ())
    {front back : List (Nat × Token)} {a : Assembly} (heq : Token.scan offset text = front ++ back)
    (hfold : front.foldlM (Assembly.step config ceiling) .start = .ok a) :
    a.outer.length ≤ max := by
  have hstart : Assembly.start.outer.length ≤ max := Nat.zero_le max
  rw [checkNesting_eq, heq] at h
  exact Assembly.length_outer_le hstart h hfold

end Descent

/-- **Depth is checked, and then a pattern is read by descent**, without any limit. -/
theorem Nfa.ofPattern_eq_descent (config : Config) (strategy : Strategy) (pattern : List Char) :
    ofPattern config strategy pattern = (do
      Descent.checkNesting config.maxNestingDepth 0 (Body.ofPattern pattern).offset
        (Body.ofPattern pattern).text
      let whole ← Descent.pattern config ⟨config.maxNfaStates, strategy⟩ none
        (Body.ofPattern pattern).offset (Body.ofPattern pattern).text
      return whole.regex.toNfa) := by
  rw [ofPattern, Regex.parse]
  simp only [Descent.checkNesting_eq, Descent.pattern_eq, Assembly.runWithin_none, bind_assoc,
    pure_bind]

/-- **The check agrees with the descent and with the grammar.**  A pattern is read by descent once
its depth has been checked.  If the check passes, a descent that may have no more groups open at
once than the check allows gives what a descent without a limit gives, and is not refused for the
depth of groups, and no reading ever has more groups open.  A pattern of the grammar is refused
for the depth of groups iff the groups of its derivation lie too deep, and then the cause names
the first opening parenthesis of a group that does. -/
theorem Nfa.ofPattern_nesting (config : Config) (strategy : Strategy) (pattern : List Char) :
    let body := Body.ofPattern pattern
    let max := config.maxNestingDepth
    let ceiling : Ceiling := ⟨config.maxNfaStates, strategy⟩
    (ofPattern config strategy pattern = (do
      Descent.checkNesting max 0 body.offset body.text
      let whole ← Descent.pattern config ceiling none body.offset body.text
      return whole.regex.toNfa)) ∧
    (Descent.checkNesting max 0 body.offset body.text = .ok () →
      Descent.pattern config ceiling (some max) body.offset body.text =
        Descent.pattern config ceiling none body.offset body.text ∧
      (∀ error, Descent.pattern config ceiling (some max) body.offset body.text = .error error →
        ¬ error.IsTooDeep) ∧
      ∀ front back a, Token.scan body.offset body.text = front ++ back →
        front.foldlM (Assembly.step config ceiling) .start = .ok a → a.outer.length ≤ max) ∧
    ∀ e : Derivation .expression, Unanchored pattern e.text →
      ((∃ bound offset, ofPattern config strategy pattern =
        .error (.malformed (.nestedTooDeep bound) offset)) ↔ max < e.depth) ∧
      (max < e.depth → ∃ opening ∈ e.openings body.offset 0, max < opening.2 ∧
        (∀ other ∈ e.openings body.offset 0, max < other.2 → opening.1 ≤ other.1) ∧
        pattern[opening.1]? = some '(' ∧
        ofPattern config strategy pattern =
          .error (.malformed (.nestedTooDeep max) opening.1)) := by
  intro body max ceiling
  have hpattern : ofPattern config strategy pattern = (do
      Descent.checkNesting max 0 body.offset body.text
      let whole ← Descent.pattern config ceiling none body.offset body.text
      return whole.regex.toNfa) :=
    ofPattern_eq_descent config strategy pattern
  -- once the check has passed, no cause that is left is about depth
  have hread : RefusedOnly strategy.MayMeet
      (Descent.pattern config ceiling none body.offset body.text) :=
    Descent.refused_pattern
  refine ⟨hpattern, fun hcheck => ?_, fun e he => ?_⟩
  · have hsame : Descent.pattern config ceiling (some max) body.offset body.text =
        Descent.pattern config ceiling none body.offset body.text :=
      Descent.pattern_of_checkNesting hcheck
    refine ⟨hsame, fun error herror => (hread error (hsame ▸ herror)).2, ?_⟩
    intro front back a heq hfold
    exact Descent.length_outer_le_of_checkNesting hcheck heq hfold
  · have htext : body.text = e.text := Body.text_ofPattern.1 he
    rcases e.checkNesting_cases max body.offset with
      ⟨hle, hcheck⟩ | ⟨hlt, opening, hopening, hdeep, hfirst, hcheck⟩
    -- the check passes, and the reading behind it is not refused for the depth of groups either
    · refine ⟨iff_of_false ?_ (Nat.not_lt.2 hle), fun hlt => absurd hlt (Nat.not_lt.2 hle)⟩
      rintro ⟨bound, offset, h⟩
      rw [← htext] at hcheck
      rw [hpattern, hcheck, Error.ok_bind] at h
      have hreads := hread.bind fun (whole : Sized) _ =>
        RefusedOnly.ok (E := strategy.MayMeet) whole.regex.toNfa
      exact (hreads _ h).2 trivial
    · have hrefused : ofPattern config strategy pattern =
          .error (.malformed (.nestedTooDeep max) opening.1) := by
        rw [← htext] at hcheck
        rw [hpattern, hcheck]
        rfl
      obtain ⟨i, hi, hopens⟩ := e.opensAt hopening
      rw [← htext] at hopens
      refine ⟨iff_of_true ⟨max, opening.1, hrefused⟩ hlt, fun _ => ?_⟩
      exact ⟨opening, hopening, hdeep, hfirst, hi ▸ Body.getElem?_ofPattern hopens, hrefused⟩

/-- Two groups, one within the other, between parentheses that are escaped or in a class. -/
theorem Nfa.ofPattern_nesting_of_signs :
    let pattern := ['\\', '(', '(', '(', 'a', ')', '[', '(', ']', ')']
    let shallow : Config := { dotAlphabet := ∅, maxNestingDepth := 1 }
    let deep : Config := { dotAlphabet := ∅, maxNestingDepth := 2 }
    let ceiling : Ceiling := ⟨deep.maxNfaStates, .hash⟩
    ofPattern shallow .hash pattern = .error (.malformed (.nestedTooDeep 1) 3) ∧
    (¬ ∃ bound offset, ofPattern deep .hash pattern =
      .error (.malformed (.nestedTooDeep bound) offset)) ∧
    Descent.pattern deep ceiling (some 2) 0 pattern =
      Descent.pattern deep ceiling none 0 pattern := by
  intro pattern shallow deep ceiling
  let cls : Class :=
    { items := [.single ⟨'(', false⟩]
      nonempty := by decide
      legal := by decide
      ascending := by decide
      unambiguous := trivial
      affirmative := by decide }
  let inner : Derivation .expression :=
    .alternative (.sequence (.one (.once (.plain 'a' (by decide)))))
  let outer : Derivation .expression :=
    .alternative (.sequence (.more (.one (.once (.group inner))) (.once (.bracket cls))))
  let e : Derivation .expression :=
    .alternative (.sequence (.more (.one (.once (.escaped '('))) (.once (.group outer))))
  have he : Unanchored pattern e.text := Body.text_ofPattern.2 (by decide)
  obtain ⟨-, -, refused⟩ := ofPattern_nesting shallow .hash pattern
  obtain ⟨-, same, passed⟩ := ofPattern_nesting deep .hash pattern
  obtain ⟨opening, hopening, hdeep, -, -, heq⟩ := (refused e he).2 (by decide)
  have hopenings : opening ∈ [(2, 1), (3, 2)] := hopening
  refine ⟨?_, fun h => absurd ((passed e he).1.1 h) (by decide), (same rfl).1⟩
  rw [heq]
  rcases List.mem_cons.1 hopenings with rfl | h
  · exact absurd hdeep (by decide)
  · rw [List.mem_singleton.1 h]

end PatternAutomata
