import PatternAutomata.Pattern.Descent
import PatternAutomata.Proofs.Pattern.Classes

/-!
# Classes read by descent

A class that is read character by character is read as when it is cut into pieces first: the
symbols, what is left, and the cause of a refusal are the same (`Descent.exists_bracket`).

## Two ways to see a range

Whether a dash is the sign of a range is seen in two ways: from the two characters that follow the
member before it, and from the pieces behind it.  `Bracket.Cut.range_cases` has the two go
together.  They could differ only in a class that breaks off in a backslash, where there is a
character but no piece; such a class is refused in either way, and the cases say with which cause.

## Following the cuts

`Bracket.Cut` says how the text of a class is cut, piece by piece, so that an induction along it
goes through the text and the pieces at once.  An item takes up to three pieces, and so the
induction is on their number (`Bracket.Cut.items_eq`).  What follows the class is a parameter
there, because a reading by tokens goes on with the tokens behind, and a descent with the text.
-/

namespace PatternAutomata

/-! ### Cutting -/

/-- `Cut offset text b tokens`: a class is cut into the pieces of `b`, of which `text` are the
characters from `offset` on, and `tokens` are those behind it.  Where the text ends first, the
class is not closed. -/
inductive Bracket.Cut : Nat → List Char → Bracket → List (Nat × Token) → Prop where
  | missing (offset : Nat) : Cut offset [] ⟨[], .missing⟩ []
  | dangling (offset : Nat) : Cut offset ['\\'] ⟨[], .dangling offset⟩ []
  | closed (offset : Nat) (rest : List Char) :
      Cut offset (']' :: rest) ⟨[], .closed⟩ (Token.scan (offset + 1) rest)
  | escaped (c : Char) {offset : Nat} {rest : List Char} {ps : List Piece} {ending : BracketEnd}
      {tokens : List (Nat × Token)} : Cut (offset + 2) rest ⟨ps, ending⟩ tokens →
      Cut offset ('\\' :: c :: rest) ⟨⟨c, true, offset⟩ :: ps, ending⟩ tokens
  | plain {c : Char} {offset : Nat} {rest : List Char} {ps : List Piece} {ending : BracketEnd}
      {tokens : List (Nat × Token)} : c ≠ '\\' → c ≠ ']' →
      Cut (offset + 1) rest ⟨ps, ending⟩ tokens →
      Cut offset (c :: rest) ⟨⟨c, false, offset⟩ :: ps, ending⟩ tokens

namespace Bracket

variable {offset : Nat} {text : List Char} {ps : List Piece} {ending : BracketEnd}
  {tokens : List (Nat × Token)}

/-- Every text of a class is cut in some way, so nothing has to be assumed of a text to speak of
its cut. -/
theorem exists_cut (offset : Nat) (text : List Char) :
    ∃ ps ending tokens, Cut offset text ⟨ps, ending⟩ tokens := by
  -- a piece has one or two characters, so the induction is on the length
  induction hn : text.length using Nat.strongRecOn generalizing offset text with
  | _ n ih =>
    match text with
    | [] => exact ⟨_, _, _, .missing offset⟩
    | c :: rest =>
        by_cases hescape : c = '\\'
        · subst hescape
          match rest with
          | [] => exact ⟨_, _, _, .dangling offset⟩
          | c :: rest =>
              obtain ⟨_, _, _, h⟩ := ih rest.length (by simp at hn; omega) (offset + 2) rest rfl
              exact ⟨_, _, _, .escaped c h⟩
        · by_cases hclose : c = ']'
          · subst hclose
            exact ⟨_, _, _, .closed offset rest⟩
          · obtain ⟨_, _, _, h⟩ := ih rest.length (by simp at hn; omega) (offset + 1) rest rfl
            exact ⟨_, _, _, .plain hescape hclose h⟩

/-- The tokens of a text show how it is cut.  The pieces before are those that have been scanned
already, last first. -/
theorem Cut.scanBracket (h : Cut offset text ⟨ps, ending⟩ tokens) (start : Nat)
    (before : List Piece) : Token.scanBracket start before offset text =
      (start, .bracket ⟨before.reverse ++ ps, ending⟩) :: tokens := by
  generalize hb : (⟨ps, ending⟩ : Bracket) = b at h
  induction h generalizing before ps ending with
  | missing offset =>
      cases hb
      rw [Token.scanBracket, List.append_nil]
  | dangling offset =>
      cases hb
      rw [Token.scanBracket, List.append_nil]
  | closed offset rest =>
      cases hb
      rw [Token.scanBracket, List.append_nil]
  | escaped c _ ih =>
      cases hb
      rw [Token.scanBracket, ih _ rfl, List.reverse_cons, List.append_assoc]
      rfl
  | plain hescape hclose _ ih =>
      cases hb
      rw [Token.scanBracket_char hescape hclose, ih _ rfl, List.reverse_cons, List.append_assoc]
      rfl

theorem Cut.scan (h : Cut (offset + 1) text ⟨ps, ending⟩ tokens) :
    Token.scan offset ('[' :: text) = (offset, .bracket ⟨ps, ending⟩) :: tokens := by
  rw [Token.scan, h.scanBracket]
  rfl

/-! ### Pieces -/

/-- How a text is cut shows what its first piece is, and the rest is cut in the same way. -/
theorem Cut.piece_cons {p : Piece} (h : Cut offset text ⟨p :: ps, ending⟩ tokens) :
    ∃ rest : Descent.Rest text.length, (∀ start, Descent.piece start offset text =
      .ok (some p, rest)) ∧ Cut rest.offset rest.text ⟨ps, ending⟩ tokens := by
  cases h with
  | escaped c h => exact ⟨_, fun _ => rfl, h⟩
  | @plain c _ rest _ _ _ hescape hclose h =>
      refine ⟨⟨offset + 1, rest, Nat.lt_succ_self _⟩, fun start => ?_, h⟩
      rw [Descent.piece]
      all_goals simp_all

/-- Where no piece is left, the class ends or the text breaks off.  In the second case both ways
of reading are refused for the same cause. -/
theorem Cut.piece_nil (h : Cut offset text ⟨[], ending⟩ tokens) (start : Nat) :
    (ending = .closed ∧ ∃ rest : Descent.Rest text.length,
      Descent.piece start offset text = .ok (none, rest) ∧
        tokens = Token.scan rest.offset rest.text) ∨
    ending ≠ .closed ∧ ∃ error, Descent.piece start offset text = .error error ∧
      ∀ members, checked start ending members = .error error := by
  cases h with
  | missing => exact .inr ⟨nofun, _, rfl, fun _ => rfl⟩
  | dangling => exact .inr ⟨nofun, _, rfl, fun _ => rfl⟩
  | closed _ rest => exact .inl ⟨rfl, _, rfl, rfl⟩

/-- A class starts with the sign of negation if its text does, and its first piece tells the
same. -/
theorem Cut.caret_cases (h : Cut offset text ⟨ps, ending⟩ tokens) :
    (text.head? = some '^' ∧ ∃ p rest, ps = p :: rest ∧ p.isCaret = true ∧ p.offset = offset) ∨
      (text.head? ≠ some '^' ∧ (ps.map Piece.member).head? ≠ some .caret) := by
  cases h with
  | missing => exact .inr ⟨nofun, nofun⟩
  | dangling => exact .inr ⟨by simp, nofun⟩
  | closed => exact .inr ⟨by simp, nofun⟩
  | escaped c h => exact .inr ⟨by simp, by simp [Piece.member, Member.caret]⟩
  | @plain c _ _ _ _ _ _ _ h =>
      by_cases hcaret : c = '^'
      · subst hcaret
        exact .inl ⟨rfl, _, _, rfl, rfl, rfl⟩
      · exact .inr ⟨by simpa using hcaret, by simpa [Piece.member, Member.caret] using hcaret⟩

/-- A member that is not followed by the sign of a range is an item, whatever comes after. -/
theorem ofPieces_cons_of_not_isDash (ending : BracketEnd) (p : Piece) {q : Piece}
    (hdash : q.isDash = false) (rest : List Piece) :
    Item.ofPieces ending (p :: q :: rest) = .single p :: Item.ofPieces ending (q :: rest) := by
  cases rest with
  | nil =>
      cases ending <;> simp [Item.ofPieces, hdash]
  | cons r rest => rw [Item.ofPieces, if_neg (by simp [hdash])]

/-- **Whether a dash is the sign of a range** is seen alike from the characters and from the
pieces behind a member. -/
theorem Cut.range_cases (h : Cut offset text ⟨ps, ending⟩ tokens) :
    (Descent.isRange text = false ∧
      ∀ p, Item.ofPieces ending (p :: ps) = .single p :: Item.ofPieces ending ps) ∨
    (Descent.isRange text = true ∧ ∃ dash after, ps = dash :: after ∧
      Cut (offset + 1) text.tail ⟨after, ending⟩ tokens ∧
      ((∃ r rest, after = r :: rest ∧
          ∀ p, Item.ofPieces ending (p :: ps) = .range p r :: Item.ofPieces ending rest) ∨
        (after = [] ∧ ending ≠ .closed ∧ ∀ p, Item.ofPieces ending (p :: ps) = []))) := by
  cases h with
  | missing => exact .inl ⟨rfl, fun _ => rfl⟩
  | dangling => exact .inl ⟨rfl, fun _ => rfl⟩
  | closed => exact .inl ⟨rfl, fun _ => rfl⟩
  | escaped c h =>
      refine .inl ⟨rfl, fun p => ofPieces_cons_of_not_isDash ending p ?_ _⟩
      exact Bool.and_false _
  | @plain c _ rest after _ _ hescape hclose h =>
      by_cases hdash : c = '-'
      · subst hdash
        -- what follows the dash decides
        cases h with
        | missing => exact .inl ⟨rfl, fun _ => rfl⟩
        | closed => exact .inl ⟨rfl, fun _ => rfl⟩
        | dangling => exact .inr ⟨rfl, _, _, rfl, .dangling _, .inr ⟨rfl, nofun, fun _ => rfl⟩⟩
        | escaped d h =>
            exact .inr ⟨rfl, _, _, rfl, .escaped d h, .inl ⟨_, _, rfl, fun _ => rfl⟩⟩
        | @plain d _ rest _ _ _ hescape hclose h =>
            refine .inr ⟨?_, _, _, rfl, .plain hescape hclose h, .inl ⟨_, _, rfl, fun _ => rfl⟩⟩
            exact bne_iff_ne.2 hclose
      · refine .inl ⟨?_, fun p => ofPieces_cons_of_not_isDash ending p ?_ _⟩
        · unfold Descent.isRange
          split
          · rename_i heq
            exact absurd (List.cons.inj heq).1 hdash
          · rfl
        · simp [Piece.isDash, hdash]

/-! ### Items -/

variable {β : Type} {size start : Nat}

/-- **The items of a class are taken in alike**, up to its end and what follows.  An item is
refused before the end is looked at, so both have to be compared together. -/
theorem Cut.items_eq (h : Cut offset text ⟨ps, ending⟩ tokens) (members : Alphabet)
    (after : Alphabet → List (Nat × Token) → Except Error β) :
    ((Item.ofPieces ending ps).foldlM (Item.addTo size start) members >>= fun members =>
      checked start ending members >>= fun members => after members tokens) =
    (Descent.items size start members offset text >>= fun r =>
      checked start .closed r.1 >>= fun members =>
        after members (Token.scan r.2.offset r.2.text)) := by
  -- an item is written with up to three pieces, so the induction is on their number
  induction hn : ps.length using Nat.strongRecOn generalizing offset text ps members with
  | _ n ih =>
    subst hn
    rw [Descent.items]
    cases ps with
    | nil =>
        rcases h.piece_nil start with ⟨rfl, rest, hpiece, rfl⟩ | ⟨-, error, hpiece, hchecked⟩
        · rw [hpiece]
          rfl
        · rw [hpiece, Item.ofPieces, List.foldlM_nil, pure_bind, hchecked members]
          rfl
    | cons p ps =>
        obtain ⟨rest, hpiece, hrest⟩ := h.piece_cons
        rw [hpiece, Error.ok_bind]
        rcases hrest.range_cases with ⟨hrange, hitems⟩ | ⟨hrange, dash, last, rfl, hlast, hcases⟩
        · simp only [hrange, hitems p, List.foldlM_cons, bind_assoc, Bool.false_eq_true, if_false,
            pure_bind]
          exact bind_congr fun grown => ih ps.length (Nat.lt_succ_self _) hrest grown rfl
        · simp only [hrange, if_true]
          rcases hcases with ⟨r, behind, rfl, hitems⟩ | ⟨rfl, hbroken, hitems⟩
          · obtain ⟨rest', hpiece', hrest'⟩ := hlast.piece_cons
            simp only [hpiece', hitems p, List.foldlM_cons, Error.ok_bind, bind_assoc, pure_bind]
            refine bind_congr fun grown => ih behind.length ?_ hrest' grown rfl
            simp only [List.length_cons]
            omega
          · obtain ⟨error, hpiece', hchecked⟩ :=
              (hlast.piece_nil start).elim (fun h => absurd h.1 hbroken) And.right
            rw [hpiece', hitems, List.foldlM_nil, pure_bind, hchecked]
            rfl

end Bracket

/-- **A class is read alike**: the symbols, what is left, and the cause of a refusal are the
same. -/
theorem Descent.exists_bracket (start : Nat) (text : List Char) :
    ∃ b tokens, Token.scan start ('[' :: text) = (start, .bracket b) :: tokens ∧
      ∀ {β : Type} (size : Nat) (after : Alphabet → List (Nat × Token) → Except Error β),
        (b.members size start >>= fun symbols => after symbols tokens) =
          (bracket size start (start + 1) text >>= fun r =>
            after r.1 (Token.scan r.2.offset r.2.text)) := by
  obtain ⟨ps, ending, tokens, hcut⟩ := Bracket.exists_cut (start + 1) text
  refine ⟨⟨ps, ending⟩, tokens, hcut.scan, fun size after => ?_⟩
  rw [bracket]
  rcases hcut.caret_cases with ⟨hcaret, p, rest, rfl, hp, hoffset⟩ | ⟨hcaret, hhead⟩
  · rw [if_pos hcaret, Bracket.members]
    simp only [hp, if_true, hoffset]
    rfl
  · rw [if_neg hcaret, Bracket.members_of_head_ne hhead, bind_assoc, Bracket.items, hcut.items_eq,
      bind_assoc]
    refine bind_congr fun r => ?_
    obtain ⟨members, rest⟩ := r
    simp only [Bracket.checked]
    cases members.isEmpty <;> rfl

end PatternAutomata
