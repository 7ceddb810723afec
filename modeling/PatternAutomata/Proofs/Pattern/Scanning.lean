import PatternAutomata.Pattern.Token
import PatternAutomata.Proofs.Pattern.Grammar

/-!
# What tokens are written with

Every token that is not broken off at the end of the text has a text of its own (`Token.Written`),
and scanning a text finds the tokens that it is put together from (`Token.Written.scan_append`).

## Closed texts

Where a text breaks off in a backslash or in an open class, what follows would be taken for the
rest of that token.  A text that does not is closed: scanning it and what follows is scanning them
one after another (`Token.Closed`).  Whether a text is closed does not depend on what stands
before it or after it, so that closed texts may be scanned one after another.  Derived texts are
closed (`Derivation.closed`), and this is why the tokens of a text can be gone through along its
derivation.

## From texts to tokens and back

Conversely a text starts with the text of a token, or it breaks off in one (`Token.scan_cases`).
With this a reading of tokens can be followed through any text, whether or not it is in the
grammar.
-/

namespace PatternAutomata

/-! ### Members and pieces -/

/-- The character of a piece without its place. -/
def Piece.member (p : Piece) : Member := ⟨p.char, p.escaped⟩

/-- The members of a class as pieces, the first of which stands at `offset`. -/
def Member.pieces (offset : Nat) : List Member → List Piece
  | [] => []
  | m :: ms => ⟨m.char, m.escaped, offset⟩ :: pieces (offset + m.text.length) ms

@[simp] theorem Member.map_member_pieces (ms : List Member) (offset : Nat) :
    (Member.pieces offset ms).map Piece.member = ms := by
  induction ms generalizing offset with
  | nil => rfl
  | cons m ms ih => simp [Member.pieces, Piece.member, ih]

namespace Token

/-! ### Bracket classes -/

theorem scanBracket_char {c : Char} (hescape : c ≠ '\\') (hclose : c ≠ ']') (start : Nat)
    (pieces : List Piece) (offset : Nat) (rest : List Char) :
    scanBracket start pieces offset (c :: rest) =
      scanBracket start (⟨c, false, offset⟩ :: pieces) (offset + 1) rest := by
  rw [scanBracket]
  · rintro d rest rfl
    exact absurd rfl hescape
  · rintro rfl
    exact absurd rfl hescape
  · rintro rfl
    exact absurd rfl hclose

/-- A member of a class is scanned as a piece, and the pieces before it are kept last first. -/
theorem scanBracket_member {m : Member} (hlegal : m.Legal) (start : Nat) (pieces : List Piece)
    (offset : Nat) (rest : List Char) :
    scanBracket start pieces offset (m.text ++ rest) =
      scanBracket start (⟨m.char, m.escaped, offset⟩ :: pieces) (offset + m.text.length)
        rest := by
  obtain ⟨c, escaped⟩ := m
  cases escaped with
  | true =>
      show scanBracket start pieces offset ('\\' :: c :: rest) = _
      rw [scanBracket]
      rfl
  | false =>
      obtain ⟨hclose, hescape⟩ := hlegal rfl
      exact scanBracket_char hescape hclose start pieces offset rest

/-- **The text of a class is scanned as one token**, and scanning goes on behind its closing
bracket. -/
theorem scanBracket_members {ms : List Member} (hlegal : ∀ m ∈ ms, m.Legal) (start : Nat)
    (pieces : List Piece) (offset : Nat) (rest : List Char) :
    scanBracket start pieces offset (ms.flatMap Member.text ++ ']' :: rest) =
      (start, bracket ⟨pieces.reverse ++ Member.pieces offset ms, .closed⟩) ::
        scan (offset + (ms.flatMap Member.text).length + 1) rest := by
  induction ms generalizing pieces offset with
  | nil =>
      rw [List.flatMap_nil, List.nil_append, scanBracket]
      simp [Member.pieces]
  | cons m ms ih =>
      rw [List.flatMap_cons, List.append_assoc, scanBracket_member (hlegal m (by simp)),
        ih fun m hm => hlegal m (List.mem_cons_of_mem _ hm)]
      simp [Member.pieces, Nat.add_assoc]

/-- Inside a class a text starts with legal members up to a closing bracket, or it breaks off. -/
theorem scanBracket_cases (start : Nat) (text : List Char) (pieces : List Piece)
    (offset : Nat) :
    (∃ (ms : List Member) (rest : List Char), (∀ m ∈ ms, m.Legal) ∧
      text = ms.flatMap Member.text ++ ']' :: rest) ∨
    ∃ b, b.ending ≠ .closed ∧
      scanBracket start pieces offset text = [(start, bracket b)] := by
  -- a member has one or two characters, so the induction is on the length
  induction hn : text.length using Nat.strongRecOn generalizing text pieces offset with
  | _ n ih =>
    have member : ∀ (m : Member) (rest : List Char), m.Legal → text = m.text ++ rest →
        rest.length < n →
        (∃ (ms : List Member) (rest : List Char), (∀ m ∈ ms, m.Legal) ∧
          text = ms.flatMap Member.text ++ ']' :: rest) ∨
        ∃ b, b.ending ≠ .closed ∧
          scanBracket start pieces offset text = [(start, bracket b)] := by
      rintro m rest hlegal rfl hlt
      rw [scanBracket_member hlegal]
      rcases ih _ hlt rest _ _ rfl with ⟨ms, tail, hms, rfl⟩ | hbroken
      · left
        refine ⟨m :: ms, tail, ?_, ?_⟩
        · intro m' hm'
          rcases List.mem_cons.1 hm' with rfl | hm'
          · exact hlegal
          · exact hms m' hm'
        · rw [List.flatMap_cons, List.append_assoc]
      · right
        exact hbroken
    cases text with
    | nil =>
        right
        exact ⟨⟨pieces.reverse, .missing⟩, by simp, by rw [scanBracket]⟩
    | cons c rest =>
        by_cases hescape : c = '\\'
        · subst hescape
          cases rest with
          | nil =>
              right
              exact ⟨⟨pieces.reverse, .dangling offset⟩, by simp, by rw [scanBracket]⟩
          | cons c rest =>
              refine member ⟨c, true⟩ rest ?_ rfl ?_
              · intro h
                cases h
              · simp only [List.length_cons] at hn
                omega
        · by_cases hclose : c = ']'
          · subst hclose
            left
            exact ⟨[], rest, by simp, rfl⟩
          · refine member ⟨c, false⟩ rest (fun _ => ⟨hclose, hescape⟩) rfl ?_
            simp only [List.length_cons] at hn
            omega

/-! ### Tokens -/

/-- The tokens of single characters, one by one.  Every character has one, since characters that
are not reserved stand for themselves. -/
inductive Signed : Char → Token → Prop where
  | dot : Signed '.' dot
  | bar : Signed '|' bar
  | opening : Signed '(' opening
  | closing : Signed ')' closing
  | repetition (sign : Quantifier) : Signed sign.char (repetition sign)
  | symbol {c : Char} : (c ≠ '\\' → c ≠ '[' → c ∉ reserved) → Signed c (symbol c)

theorem signed_ofChar (c : Char) : Signed c (ofChar c) := by
  rw [ofChar]
  by_cases hdot : c = '.'
  · rw [if_pos hdot, hdot]
    exact .dot
  rw [if_neg hdot]
  by_cases hbar : c = '|'
  · rw [if_pos hbar, hbar]
    exact .bar
  rw [if_neg hbar]
  by_cases hopening : c = '('
  · rw [if_pos hopening, hopening]
    exact .opening
  rw [if_neg hopening]
  by_cases hclosing : c = ')'
  · rw [if_pos hclosing, hclosing]
    exact .closing
  rw [if_neg hclosing, Quantifier.ofChar?]
  by_cases hstar : c = '*'
  · rw [if_pos hstar, hstar]
    exact .repetition .star
  rw [if_neg hstar]
  by_cases hplus : c = '+'
  · rw [if_pos hplus, hplus]
    exact .repetition .plus
  rw [if_neg hplus]
  by_cases hoptional : c = '?'
  · rw [if_pos hoptional, hoptional]
    exact .repetition .optional
  rw [if_neg hoptional]
  -- none of the signs is left
  refine .symbol ?_
  intro hescape hopen
  simp [reserved, hdot, hbar, hopening, hclosing, hstar, hplus, hoptional, hescape, hopen]

/-- `Written offset text token`: the text writes the token, if it stands at `offset`.  Only
classes depend on where they stand. -/
inductive Written (offset : Nat) : List Char → Token → Prop where
  | char {c : Char} : c ≠ '\\' → c ≠ '[' → Written offset [c] (ofChar c)
  | escaped (c : Char) : Written offset ['\\', c] (symbol c)
  | bracket {ms : List Member} : (∀ m ∈ ms, m.Legal) →
      Written offset ('[' :: ms.flatMap Member.text ++ [']'])
        (bracket ⟨Member.pieces (offset + 1) ms, .closed⟩)

/-- A sign of repetition is written with its character. -/
theorem Written.repetition {offset : Nat} (sign : Quantifier) :
    Written offset [sign.char] (repetition sign) := by
  cases sign with
  | star => exact .char (by decide) (by decide)
  | plus => exact .char (by decide) (by decide)
  | optional => exact .char (by decide) (by decide)

/-- A plain character is written with itself, which takes that it is not reserved. -/
theorem Written.plain {offset : Nat} {c : Char} (h : c ∉ reserved) :
    Written offset [c] (symbol c) := by
  have hc := h
  simp only [reserved, List.mem_cons, not_or] at hc
  obtain ⟨hbar, hstar, hplus, hoptional, hdot, hopening, hclosing, hopen, hescape, _⟩ := hc
  have hsymbol : ofChar c = symbol c := by
    simp [ofChar, Quantifier.ofChar?, hbar, hstar, hplus, hoptional, hdot, hopening, hclosing]
  rw [← hsymbol]
  exact .char hescape hopen

/-- A token that the end of the text cut off: a class that is not closed, or a backslash with
nothing behind it. -/
def Broken : Token → Prop
  | bracket b => b.ending ≠ .closed
  | dangling => True
  | _ => False

theorem scan_char {c : Char} (hescape : c ≠ '\\') (hopen : c ≠ '[') (offset : Nat)
    (rest : List Char) :
    scan offset (c :: rest) = (offset, ofChar c) :: scan (offset + 1) rest := by
  rw [scan]
  · rintro d rest rfl
    exact absurd rfl hescape
  · rintro rfl
    exact absurd rfl hescape
  · rintro rfl
    exact absurd rfl hopen

/-- **A text of a token is scanned as that token**, whatever follows. -/
theorem Written.scan_append {offset : Nat} {text : List Char} {token : Token}
    (h : Written offset text token) (rest : List Char) :
    scan offset (text ++ rest) = (offset, token) :: scan (offset + text.length) rest := by
  cases h with
  | char hescape hopen => exact scan_char hescape hopen offset rest
  | escaped c => exact scan_escaped offset c rest
  | bracket hlegal =>
      rw [List.cons_append, List.cons_append, List.append_assoc, List.singleton_append, scan,
        scanBracket_members hlegal]
      simp only [List.reverse_nil, List.nil_append, List.length_cons, List.length_append,
        List.length_nil]
      congr 2
      omega

theorem Written.ne_nil {offset : Nat} {text : List Char} {token : Token}
    (h : Written offset text token) : text ≠ [] := by
  cases h <;> simp

/-- **A text starts with the text of a token, or it breaks off in one.**  The empty text is the
third case. -/
theorem scan_cases (offset : Nat) (text : List Char) :
    text = [] ∨
    (∃ first rest token, text = first ++ rest ∧ Written offset first token) ∨
    ∃ token, token.Broken ∧ scan offset text = [(offset, token)] := by
  cases text with
  | nil => exact .inl rfl
  | cons c rest =>
      right
      by_cases hescape : c = '\\'
      · subst hescape
        cases rest with
        | nil => exact .inr ⟨dangling, trivial, by rw [scan]⟩
        | cons c rest => exact .inl ⟨['\\', c], rest, symbol c, rfl, .escaped c⟩
      · by_cases hopen : c = '['
        · subst hopen
          rcases scanBracket_cases offset rest [] (offset + 1) with
            ⟨ms, tail, hlegal, rfl⟩ | ⟨b, hb, hscan⟩
          · left
            exact ⟨'[' :: ms.flatMap Member.text ++ [']'], tail, _, by simp, .bracket hlegal⟩
          · right
            exact ⟨bracket b, hb, by rw [scan, hscan]⟩
        · exact .inl ⟨[c], rest, ofChar c, rfl, .char hescape hopen⟩

/-! ### Closed texts -/

/-- A text is closed if no token is cut off by its end, so that what follows it is scanned on its
own. -/
def Closed (text : List Char) : Prop :=
  ∀ (offset : Nat) (rest : List Char),
    scan offset (text ++ rest) = scan offset text ++ scan (offset + text.length) rest

theorem Closed.nil : Closed [] := by
  intro offset rest
  simp

theorem Closed.append {v w : List Char} (hv : Closed v) (hw : Closed w) : Closed (v ++ w) := by
  intro offset rest
  rw [List.append_assoc, hv, hw, hv offset w, List.length_append, List.append_assoc,
    Nat.add_assoc]

theorem Closed.of_written {text : List Char}
    (h : ∀ offset, ∃ token, Written offset text token) : Closed text := by
  intro offset rest
  obtain ⟨token, hwritten⟩ := h offset
  have hself := hwritten.scan_append []
  rw [List.append_nil, scan_nil] at hself
  rw [hwritten.scan_append, hself, List.singleton_append]

theorem Closed.char {c : Char} (hescape : c ≠ '\\') (hopen : c ≠ '[') : Closed [c] :=
  .of_written fun _ => ⟨_, .char hescape hopen⟩

end Token

namespace Derivation

/-- **No derived text breaks off in a token**, by induction over the derivation. -/
theorem closed {k : Category} (d : Derivation k) : Token.Closed d.text := by
  induction d with
  | alternative t ih => exact ih
  | either e t ihe iht =>
      exact ihe.append ((Token.Closed.char (by decide) (by decide)).append iht)
  | nothing => exact .nil
  | sequence fs ih => exact ih
  | one f ih => exact ih
  | more fs f ihfs ihf => exact ihfs.append ihf
  | once a ih => exact ih
  | repeated f sign ih => exact ih.append (.of_written fun _ => ⟨_, .repetition sign⟩)
  | plain c hc => exact .of_written fun _ => ⟨_, .plain hc⟩
  | escaped c => exact .of_written fun _ => ⟨_, .escaped c⟩
  | dot => exact .char (by decide) (by decide)
  | bracket cls => exact .of_written fun _ => ⟨_, .bracket cls.legal⟩
  | group e ih =>
      exact (Token.Closed.char (c := '(') (by decide) (by decide)).append
        (ih.append (.char (by decide) (by decide)))

end Derivation

end PatternAutomata
