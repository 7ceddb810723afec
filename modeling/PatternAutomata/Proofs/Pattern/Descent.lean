import PatternAutomata.Proofs.Pattern.ClassDescent

/-!
# Patterns read by descent

A pattern that is read by descent, with or without a limit on the groups that are open, is read as
when its tokens are put together one after another, with the same limit (`Descent.pattern_eq`).

## A call that has not returned is an open group

What the descent has still to do after a call is what is kept of the groups around: so
`Assembly.follow` is the rest of the reading, and a function of the descent, followed by it, is a
reading of the tokens from where it starts.  There is a statement of this form for each of the
four functions, and each is proved from those of the functions that it calls.

## A factor is joined as soon as it ends

In the descent a factor is joined when no sign of repetition follows, and in the assembly when the
next token is taken in.  Nothing can be refused between the two, so a factor may be joined before
the next token is looked at (`Assembly.runWithin_join`).

## Induction along the calls

The functions call one another on shorter texts, and an expression calls a term on the same text.
`Descent.calls_induction` has this order once and for all, for any four statements about them; it
is used here and for everything else that is shown of the descent.
-/

namespace PatternAutomata

open Regex (Sized)

theorem Quantifier.eq_char_of_ofChar? {c : Char} {sign : Quantifier}
    (h : ofChar? c = some sign) : c = sign.char := by
  unfold ofChar? at h
  repeat' split at h
  all_goals cases h
  all_goals assumption

namespace Assembly

variable (limit : Option Nat) (config : Config) (ceiling : Ceiling)

/-- Takes in one token, and opens a group only if the limit allows.  Nothing is different for
other tokens. -/
def stepWithin (a : Assembly) : Nat × Token → Except Error Assembly
  | (offset, .opening) => do
    let level ← a.level.join ceiling
    Descent.enter limit a.outer.length offset
    return ⟨.start, (offset, level) :: a.outer⟩
  | token => a.step config ceiling token

/-- Reads tokens on to the end of a pattern, with a limit on the groups that are open. -/
def runWithin (a : Assembly) (tokens : List (Nat × Token)) : Except Error Sized := do
  let a ← tokens.foldlM (stepWithin limit config ceiling) a
  a.finish ceiling

variable {limit config ceiling} {level : Level} {outer : List (Nat × Level)}

theorem runWithin_nil (a : Assembly) : a.runWithin limit config ceiling [] = a.finish ceiling := rfl

theorem runWithin_cons (a : Assembly) (token : Nat × Token) (tokens : List (Nat × Token)) :
    a.runWithin limit config ceiling (token :: tokens) =
      (a.stepWithin limit config ceiling token >>= fun next =>
        next.runWithin limit config ceiling tokens) := by
  rw [runWithin, List.foldlM_cons, bind_assoc]
  rfl

/-- Without a limit nothing changes, so the reading with a limit is the more general one. -/
theorem runWithin_none (a : Assembly) (tokens : List (Nat × Token)) :
    a.runWithin none config ceiling tokens = a.run config ceiling tokens := by
  have hstep : stepWithin none config ceiling = step config ceiling := by
    funext a token
    obtain ⟨offset, token⟩ := token
    cases token <;> rfl
  rw [runWithin, run, hstep]

/-! ### Joining early -/

/-- A token other than a sign of repetition joins the last factor first. -/
theorem stepWithin_join {offset : Nat} {token : Token}
    (hsign : ∀ sign, token ≠ .repetition sign) :
    stepWithin limit config ceiling ⟨level, outer⟩ (offset, token) =
      (level.join ceiling >>= fun next =>
        stepWithin limit config ceiling ⟨next, outer⟩ (offset, token)) := by
  obtain ⟨alternatives, front, last⟩ := level
  cases last with
  | none => rfl
  | some factor =>
      cases front with
      | none =>
          cases token with
          | repetition sign => exact absurd rfl (hsign sign)
          | _ => rfl
      | some front =>
          cases hconcat : ceiling.concat front factor with
          | error error =>
              cases token with
              | repetition sign => exact absurd rfl (hsign sign)
              | _ => simp [stepWithin, step, addChoice, Level.close, Level.join, hconcat]
          | ok joined =>
              cases token with
              | repetition sign => exact absurd rfl (hsign sign)
              | _ => simp [stepWithin, step, addChoice, Level.close, Level.join, hconcat]

/-- So does the end of a pattern, by closing the level. -/
theorem finish_join : finish ceiling ⟨level, outer⟩ =
    (level.join ceiling >>= fun next => finish ceiling ⟨next, outer⟩) := by
  obtain ⟨alternatives, front, last⟩ := level
  cases last with
  | none => rfl
  | some factor =>
      cases front with
      | none => rfl
      | some front =>
          cases hconcat : ceiling.concat front factor with
          | error error => simp [finish, Level.close, Level.join, hconcat]
          | ok joined => simp [finish, Level.close, Level.join, hconcat]

/-- **A factor may be joined before the next token is looked at**, unless it is repeated. -/
theorem runWithin_join {tokens : List (Nat × Token)}
    (hsign : ∀ offset sign rest, tokens ≠ (offset, .repetition sign) :: rest) :
    runWithin limit config ceiling ⟨level, outer⟩ tokens =
      (level.join ceiling >>= fun next =>
        runWithin limit config ceiling ⟨next, outer⟩ tokens) := by
  cases tokens with
  | nil => exact finish_join
  | cons token tokens =>
      obtain ⟨offset, token⟩ := token
      simp only [runWithin_cons]
      rw [stepWithin_join fun sign h => hsign offset sign tokens (by rw [h]), bind_assoc]

/-! ### What follows -/

variable (limit config ceiling) in
/-- What comes after all of a group has been read: its closing parenthesis and the rest, or the
end of the pattern, or one of the two refusals. -/
def follow (outer : List (Nat × Level)) (whole : Sized) (offset : Nat) (text : List Char) :
    Except Error Sized :=
  match outer, text with
  | [], [] => .ok whole
  | [], _ :: _ => .error (.malformed .strayClosing offset)
  | (_, level) :: outer, ')' :: text =>
    runWithin limit config ceiling ⟨{ level with last := some whole }, outer⟩
      (Token.scan (offset + 1) text)
  | (start, _) :: _, _ => .error (.malformed .unclosedGroup start)

variable (limit config ceiling) in
/-- What comes after all alternatives before some place have been read: one more alternative, or
the end of the group. -/
def resume (outer : List (Nat × Level)) (before : Sized) (offset : Nat) (text : List Char) :
    Except Error Sized :=
  match text with
  | '|' :: text =>
    runWithin limit config ceiling ⟨⟨some before, none, none⟩, outer⟩ (Token.scan (offset + 1) text)
  | text => follow limit config ceiling outer before offset text

/-- Where a term ends all of it is closed, before it is seen which character ends it. -/
theorem runWithin_of_endsTerm {offset : Nat} {text : List Char}
    (h : Descent.endsTerm text = true) :
    runWithin limit config ceiling ⟨level, outer⟩ (Token.scan offset text) =
      (level.close ceiling >>= fun whole =>
        resume limit config ceiling outer whole offset text) := by
  cases text with
  | nil =>
      rw [Token.scan_nil, runWithin_nil, finish]
      refine bind_congr fun whole => ?_
      cases outer <;> rfl
  | cons c text =>
      rw [Descent.endsTerm, Bool.or_eq_true, beq_iff_eq, beq_iff_eq] at h
      rcases h with rfl | rfl
      · rw [Token.scan_char (by decide) (by decide), runWithin_cons]
        exact bind_assoc _ _ _
      · rw [Token.scan_char (by decide) (by decide), runWithin_cons]
        refine (bind_assoc _ _ _).trans (bind_congr fun whole => ?_)
        cases outer <;> rfl

/-- After a group has been read it is closed, and it is the last factor of the level around it. -/
theorem follow_cons {n start : Nat} (whole : Sized) (rest : Descent.Rest n) :
    follow limit config ceiling ((start, level) :: outer) whole rest.offset rest.text =
      (rest.close start >>= fun rest =>
        runWithin limit config ceiling ⟨{ level with last := some whole }, outer⟩
          (Token.scan rest.offset rest.text)) := by
  obtain ⟨offset, text, shorter⟩ := rest
  rcases text with _ | ⟨c, text⟩
  · rfl
  · by_cases hc : c = ')'
    · subst hc
      rfl
    · have hhead : (c :: text).head? ≠ some ')' := fun h => hc (Option.some.inj h)
      rw [Descent.Rest.close, if_neg hhead, follow]
      · rfl
      · intro _ heq
        exact hc (List.cons.inj heq).1

end Assembly

/-! ### The functions of the descent -/

namespace Descent

open Assembly (runWithin follow resume)

variable (limit : Option Nat) (config : Config) (ceiling : Ceiling)

/-- Alternatives are read, and then what follows the group.  There are as many open groups as
levels outside. -/
def ReadsExpression (text : List Char) : Prop :=
  ∀ (outer : List (Nat × Level)) (offset : Nat),
    runWithin limit config ceiling ⟨.start, outer⟩ (Token.scan offset text) =
      (expression config ceiling limit outer.length offset text >>= fun r =>
        follow limit config ceiling outer r.1 r.2.offset r.2.text)

/-- More alternatives are read, and then what follows the group. -/
def ReadsAlternatives (text : List Char) : Prop :=
  ∀ (outer : List (Nat × Level)) (before : Sized) (offset : Nat),
    resume limit config ceiling outer before offset text =
      (alternatives config ceiling limit outer.length before offset text >>= fun r =>
        follow limit config ceiling outer r.1 r.2.offset r.2.text)

/-- The factors of an alternative are read, and then more alternatives. -/
def ReadsTerm (text : List Char) : Prop :=
  ∀ (alternatives front : Option Sized) (outer : List (Nat × Level)) (offset : Nat),
    runWithin limit config ceiling ⟨⟨alternatives, front, none⟩, outer⟩ (Token.scan offset text) =
      (term config ceiling limit outer.length front offset text >>= fun r =>
        Level.close ceiling ⟨alternatives, some r.1, none⟩ >>= fun whole =>
          resume limit config ceiling outer whole r.2.offset r.2.text)

/-- An atom is read, and it is the last factor of what is read on. -/
def ReadsAtom (text : List Char) : Prop :=
  ∀ (alternatives front : Option Sized) (outer : List (Nat × Level)) (c : Char) (offset : Nat),
    endsTerm (c :: text) = false →
    runWithin limit config ceiling ⟨⟨alternatives, front, none⟩, outer⟩
        (Token.scan offset (c :: text)) =
      (atom config ceiling limit outer.length c offset text >>= fun r =>
        runWithin limit config ceiling ⟨⟨alternatives, front, some r.1⟩, outer⟩
          (Token.scan r.2.offset r.2.text))

variable {limit config ceiling}

/-- A character that is no sign of repetition starts no such token. -/
theorem scan_unsigned {c : Char} (hc : Quantifier.ofChar? c = none) (offset : Nat)
    (text : List Char) :
    ∀ start sign rest, Token.scan offset (c :: text) ≠ (start, .repetition sign) :: rest := by
  intro start sign rest heq
  by_cases hescape : c = '\\'
  · subst hescape
    cases text with
    | nil =>
        rw [Token.scan] at heq
        cases heq
    | cons c text =>
        rw [Token.scan_escaped] at heq
        cases heq
  · by_cases hopen : c = '['
    · subst hopen
      obtain ⟨b, tokens, hscan, -⟩ := exists_bracket offset text
      rw [hscan] at heq
      cases heq
    · rw [Token.scan_char hescape hopen, List.cons.injEq, Prod.mk.injEq] at heq
      have hsigned := Token.signed_ofChar c
      rw [heq.1.2] at hsigned
      cases hsigned
      rw [Quantifier.ofChar?_char] at hc
      cases hc

/-- **Signs of repetition are taken in** behind a factor, which is joined then. -/
theorem runWithin_repetitions (alternatives front : Option Sized) (outer : List (Nat × Level))
    (factor : Sized) (offset : Nat) (text : List Char) :
    runWithin limit config ceiling ⟨⟨alternatives, front, some factor⟩, outer⟩
        (Token.scan offset text) =
      (repetitions ceiling factor offset text >>= fun r =>
        Level.join ceiling ⟨alternatives, front, some r.1⟩ >>= fun level =>
          runWithin limit config ceiling ⟨level, outer⟩ (Token.scan r.2.offset r.2.text)) := by
  induction text generalizing factor offset with
  | nil =>
      rw [Token.scan_nil]
      exact Assembly.runWithin_join fun _ _ _ => nofun
  | cons c text ih =>
      rw [repetitions]
      cases hc : Quantifier.ofChar? c with
      | none => exact Assembly.runWithin_join (scan_unsigned hc offset text)
      | some sign =>
          obtain rfl := Quantifier.eq_char_of_ofChar? hc
          have hscan := (Token.Written.repetition sign : Token.Written offset _ _).scan_append text
          rw [List.singleton_append] at hscan
          rw [hscan, Assembly.runWithin_cons]
          show (ceiling.repeated sign factor >>= _) >>= _ =
            (ceiling.repeated sign factor >>= _) >>= _
          simp only [bind_assoc, pure_bind]
          exact bind_congr fun grown => ih grown (offset + 1)

/-- Where a term ends its factors are closed, or it is the empty term. -/
theorem readsTerm_of_endsTerm {text : List Char} (h : endsTerm text = true)
    (alternatives front : Option Sized) (outer : List (Nat × Level)) (offset : Nat) :
    runWithin limit config ceiling ⟨⟨alternatives, front, none⟩, outer⟩ (Token.scan offset text) =
      (Level.close ceiling ⟨alternatives, some (front.getD .empty), none⟩ >>= fun whole =>
        resume limit config ceiling outer whole offset text) := by
  rw [Assembly.runWithin_of_endsTerm h]
  cases front <;> rfl

theorem readsTerm {text : List Char}
    (hatom : ∀ c v, text = c :: v → ReadsAtom limit config ceiling v)
    (hterm : ∀ v : List Char, v.length < text.length → ReadsTerm limit config ceiling v) :
    ReadsTerm limit config ceiling text := by
  intro alternatives front outer offset
  rw [term.eq_def]
  cases text with
  | nil => exact readsTerm_of_endsTerm rfl alternatives front outer offset
  | cons c text =>
      cases hends : endsTerm (c :: text) with
      | true =>
          simp only [hends, if_true]
          exact readsTerm_of_endsTerm hends alternatives front outer offset
      | false =>
          rw [hatom c text rfl alternatives front outer c offset hends]
          simp only [hends, Bool.false_eq_true, if_false, bind_assoc, runWithin_repetitions]
          refine bind_congr fun first => bind_congr fun factor => ?_
          have shorter : factor.2.text.length < (c :: text).length := by
            have h₁ := first.2.shorter
            have h₂ := factor.2.shorter
            simp only [List.length_cons]
            omega
          cases front with
          | none =>
              simp only [pure_bind, bind_assoc]
              exact hterm _ shorter alternatives (some factor.1) outer factor.2.offset
          | some front =>
              simp only [pure_bind, bind_assoc]
              refine (bind_assoc _ _ _).trans (bind_congr fun joined => ?_)
              exact hterm _ shorter alternatives (some joined) outer factor.2.offset

theorem readsAlternatives {text : List Char}
    (hterm : ∀ v : List Char, v.length < text.length → ReadsTerm limit config ceiling v)
    (halternatives : ∀ v : List Char, v.length < text.length →
      ReadsAlternatives limit config ceiling v) :
    ReadsAlternatives limit config ceiling text := by
  intro outer before offset
  rw [alternatives.eq_def]
  split
  · rename_i text
    rw [resume, hterm text (Nat.lt_succ_self _)]
    simp only [bind_assoc, pure_bind]
    refine bind_congr fun next => bind_congr fun whole => ?_
    exact halternatives _ next.2.shorter outer whole next.2.offset
  · rw [resume]
    · rfl
    · assumption

theorem readsExpression {text : List Char} (hterm : ReadsTerm limit config ceiling text)
    (halternatives : ∀ v : List Char, v.length ≤ text.length →
      ReadsAlternatives limit config ceiling v) :
    ReadsExpression limit config ceiling text := by
  intro outer offset
  rw [expression.eq_def, Level.start, hterm]
  simp only [bind_assoc, pure_bind]
  refine bind_congr fun first => ?_
  exact halternatives _ (Nat.le_of_lt_succ first.2.shorter) outer first.1 first.2.offset

theorem readsAtom {text : List Char} (hexpression : ReadsExpression limit config ceiling text) :
    ReadsAtom limit config ceiling text := by
  intro alternatives front outer c offset hends
  rw [atom.eq_def]
  by_cases hopening : c = '('
  · subst hopening
    rw [Token.scan_char (by decide) (by decide), Assembly.runWithin_cons, if_pos rfl]
    show (enter limit outer.length offset >>= _) >>= _ = _
    simp only [bind_assoc, pure_bind]
    refine bind_congr fun _ => ?_
    rw [hexpression]
    exact bind_congr fun inner => Assembly.follow_cons inner.1 inner.2
  by_cases hopen : c = '['
  · subst hopen
    obtain ⟨b, tokens, hscan, hbracket⟩ := exists_bracket offset text
    rw [hscan, Assembly.runWithin_cons, if_neg (by decide), if_pos rfl]
    show (b.members config.maxClassSize offset >>= _) >>= _ = _
    simp only [bind_assoc, pure_bind]
    exact hbracket _ fun symbols tokens => runWithin limit config ceiling
      ⟨⟨alternatives, front, some (.oneOf symbols)⟩, outer⟩ tokens
  by_cases hdot : c = '.'
  · subst hdot
    rw [Token.scan_char (by decide) (by decide), Assembly.runWithin_cons, if_neg (by decide),
      if_neg (by decide), if_pos rfl]
    rfl
  by_cases hescape : c = '\\'
  · subst hescape
    rw [if_neg (by decide), if_neg (by decide), if_neg (by decide), if_pos rfl]
    cases text with
    | nil =>
        rw [Token.scan, Assembly.runWithin_cons]
        rfl
    | cons c text =>
        rw [Token.scan_escaped, Assembly.runWithin_cons]
        rfl
  rw [if_neg hopening, if_neg hopen, if_neg hdot, if_neg hescape,
    Token.scan_char hescape hopen, Assembly.runWithin_cons]
  -- what is left is a plain character or a sign of repetition that there is nothing to repeat for
  have hsigns : c ≠ '|' ∧ c ≠ ')' := by simpa [endsTerm] using hends
  rw [Token.ofChar, if_neg hdot, if_neg hsigns.1, if_neg hopening, if_neg hsigns.2]
  cases Quantifier.ofChar? c <;> rfl

/-- **Induction along the calls.**  Of the functions that call one another, what holds of each if
it holds of those that it calls holds of all. -/
theorem calls_induction {Expression Alternatives Term Atom : List Char → Prop}
    (expression : ∀ text, Term text →
      (∀ v : List Char, v.length ≤ text.length → Alternatives v) → Expression text)
    (alternatives : ∀ text : List Char, (∀ v : List Char, v.length < text.length → Term v) →
      (∀ v : List Char, v.length < text.length → Alternatives v) → Alternatives text)
    (term : ∀ text : List Char, (∀ c v, text = c :: v → Atom v) →
      (∀ v : List Char, v.length < text.length → Term v) → Term text)
    (atom : ∀ text, Expression text → Atom text) (text : List Char) :
    Expression text ∧ Alternatives text ∧ Term text ∧ Atom text := by
  -- the functions call one another on shorter texts, so the induction is on the length
  induction hn : text.length using Nat.strongRecOn generalizing text with
  | _ n ih =>
    subst hn
    have shorter : ∀ v : List Char, v.length < text.length → _ := fun v hv => ih v.length hv v rfl
    have hterm : Term text :=
      term text (fun c v heq => (shorter v (by simp [heq])).2.2.2) fun v hv => (shorter v hv).2.2.1
    have halternatives : ∀ v : List Char, v.length ≤ text.length → Alternatives v := fun v hv =>
      alternatives v (fun u hu => (shorter u (Nat.lt_of_lt_of_le hu hv)).2.2.1)
        fun u hu => (shorter u (Nat.lt_of_lt_of_le hu hv)).2.1
    have hexpression := expression text hterm halternatives
    exact ⟨hexpression, halternatives text (Nat.le_refl _), hterm, atom text hexpression⟩

/-- **The functions of the descent** are what the tokens of a text come to. -/
theorem reads (text : List Char) :
    ReadsExpression limit config ceiling text ∧ ReadsAlternatives limit config ceiling text ∧
      ReadsTerm limit config ceiling text ∧ ReadsAtom limit config ceiling text :=
  calls_induction (fun _ => readsExpression) (fun _ => readsAlternatives) (fun _ => readsTerm)
    (fun _ => readsAtom) text

/-- **A pattern is read alike**, with the same limit on the groups that are open.  This is for any
offset, since a pattern may stand behind an anchor. -/
theorem pattern_eq (offset : Nat) (text : List Char) :
    pattern config ceiling limit offset text =
      runWithin limit config ceiling .start (Token.scan offset text) := by
  rw [Assembly.start, (reads text).1 [] offset, pattern]
  refine bind_congr fun r => ?_
  obtain ⟨whole, offset, text, -⟩ := r
  cases text <;> rfl

end Descent

end PatternAutomata
