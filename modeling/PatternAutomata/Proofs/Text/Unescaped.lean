import Mathlib.Data.List.Infix
import PatternAutomata.Text.Unescaped

/-!
# Written forms are told apart

No written form is the beginning of another one (`escape_append_inj`), so what is written without
a gap can be read back.  Symbols are written in three ways: as themselves, as a backslash with a
letter, or as a backslash with a code point between braces.

## Reading back

Which of the three it is can be seen from the first two characters, and each is read back whatever
follows it (`unescape?_escape`).  The digits of a code point end at the brace, since no digit is
one.  Written forms between commas are read back as well (`unescapeList_intercalate`): a symbol
that is a comma is written as itself, and it is told from a separator by where it stands.
-/

namespace PatternAutomata.Text

variable {c d : Char} {rest rest' : List Char}

/-! ### Numbers -/

theorem hexValue_digitChar : ∀ {n : Nat}, n < 16 → hexValue n.digitChar = n := by
  decide

theorem digitChar_ne_brace : ∀ {n : Nat}, n < 16 → n.digitChar ≠ '\x7d' := by
  decide

/-- The digits of a number are those of its sixteenth part, and one more.  The induction has this
shape, as digits are read from the front. -/
theorem toDigits_induction {motive : Nat → List Char → Prop}
    (one : ∀ n, n < 16 → motive n [n.digitChar])
    (more : ∀ n digits, motive (n / 16) digits → motive n (digits ++ [(n % 16).digitChar]))
    (n : Nat) : motive n (Nat.toDigits 16 n) := by
  induction n using Nat.strongRecOn with
  | ind n ih =>
      rcases Nat.lt_or_ge n 16 with hlt | hge
      · rw [Nat.toDigits_of_lt_base hlt]
        exact one n hlt
      · rw [Nat.toDigits_of_base_le (by decide) hge]
        exact more n _ (ih (n / 16) (by omega))

theorem hexNumber_concat (digits : List Char) (digit : Char) :
    hexNumber (digits ++ [digit]) = 16 * hexNumber digits + hexValue digit := by
  rw [hexNumber, List.foldl_concat]
  rfl

/-- **A number is read back from its digits**, however many there are. -/
theorem hexNumber_toDigits (n : Nat) : hexNumber (Nat.toDigits 16 n) = n := by
  refine toDigits_induction (motive := fun n digits => hexNumber digits = n) (fun n hn => ?_)
    (fun n digits ih => ?_) n
  · simp [hexNumber, hexValue_digitChar hn]
  · rw [hexNumber_concat, ih, hexValue_digitChar (Nat.mod_lt _ (by decide))]
    omega

theorem ne_brace_of_mem_toDigits (n : Nat) : ∀ digit ∈ Nat.toDigits 16 n, digit ≠ '\x7d' := by
  refine toDigits_induction (motive := fun _ digits => ∀ digit ∈ digits, digit ≠ '\x7d')
    (fun n hn digit h => ?_) (fun n digits ih digit h => ?_) n
  · rw [List.mem_singleton.1 h]
    exact digitChar_ne_brace hn
  · rcases List.mem_append.1 h with h | h
    · exact ih digit h
    · rw [List.mem_singleton.1 h]
      exact digitChar_ne_brace (Nat.mod_lt _ (by decide))

/-! ### Symbols -/

/-- The escape by code point is read back. -/
theorem unescape?_codeEscape (c : Char) (rest : List Char) :
    unescape? (codeEscape c ++ rest) = some (c, rest) := by
  have digits := ne_brace_of_mem_toDigits c.toNat
  have taken : (Nat.toDigits 16 c.toNat ++ '\x7d' :: rest).takeWhile (· ≠ '\x7d') =
      Nat.toDigits 16 c.toNat := by
    rw [List.takeWhile_append_of_pos (by simpa using digits)]
    simp
  have dropped : (Nat.toDigits 16 c.toNat ++ '\x7d' :: rest).dropWhile (· ≠ '\x7d') =
      '\x7d' :: rest := by
    rw [List.dropWhile_append_of_pos (by simpa using digits)]
    simp
  simp only [codeEscape, List.cons_append, List.append_assoc, List.nil_append, unescape?, taken,
    dropped, hexNumber_toDigits, Char.ofNat_toNat, List.drop_succ_cons, List.drop_zero]

/-- The letter of a short escape stands for one symbol, and begins no escape by code point. -/
theorem ofShortEscape_eq {letter : Char} (h : shortEscape? c = some letter) :
    ofShortEscape letter = c ∧ letter ≠ 'u' := by
  unfold shortEscape? at h
  grind [ofShortEscape]

/-- A letter after a backslash is read back as the symbol that it stands for. -/
theorem unescape?_shortEscape {letter : Char} (h : shortEscape? c = some letter)
    (rest : List Char) : unescape? ('\\' :: letter :: rest) = some (c, rest) := by
  obtain ⟨hc, hne⟩ := ofShortEscape_eq h
  rw [unescape?, hc]
  exact fun _ hu => absurd hu hne

theorem unescape?_plain (h : c ≠ '\\') (rest : List Char) :
    unescape? (c :: rest) = some (c, rest) := by
  unfold unescape?
  split <;> simp_all

/-- **A written form is read back**, whatever follows it. -/
theorem unescape?_escape (c : Char) (rest : List Char) :
    unescape? (escape c ++ rest) = some (c, rest) := by
  unfold escape escapeQuoted
  split
  case isTrue h => rw [h]; rfl
  case isFalse =>
    cases hshort : shortEscape? c with
    | some letter => exact unescape?_shortEscape hshort rest
    | none =>
        have plain : c ≠ '\\' := by
          rintro rfl
          cases hshort
        simp only
        split
        · exact unescape?_codeEscape c rest
        · exact unescape?_plain plain rest

/-- **No written form is the beginning of another one**, and so the first symbol of a text and
what follows it are known. -/
theorem escape_append_inj (h : escape c ++ rest = escape d ++ rest') : c = d ∧ rest = rest' := by
  have hread := unescape?_escape c rest
  rw [h, unescape?_escape] at hread
  cases hread
  exact ⟨rfl, rfl⟩

theorem escape_injective : Function.Injective escape := by
  intro c d h
  have followed : escape c ++ [] = escape d ++ [] := by rw [h]
  exact (escape_append_inj followed).1

/-! ### Lists of symbols -/

theorem unescapeList_of_end {text : List Char} (h : unescape? text = some (c, [])) :
    unescapeList text = some [c] := by
  rw [unescapeList]
  split <;> simp_all

theorem unescapeList_of_comma {text : List Char} (h : unescape? text = some (c, ',' :: rest)) :
    unescapeList text = (unescapeList rest).map (c :: ·) := by
  rw [unescapeList]
  split <;> simp_all

/-- **Written forms between commas are read back**, also where the comma is one of the symbols.
Without symbols there would be nothing to read. -/
theorem unescapeList_intercalate {symbols : List Char} (h : symbols ≠ []) :
    unescapeList (List.intercalate [','] (symbols.map escape)) = some symbols := by
  induction symbols with
  | nil => exact absurd rfl h
  | cons c symbols ih =>
      cases symbols with
      | nil =>
          have text : List.intercalate [','] ([c].map escape) = escape c ++ [] := by
            simp [List.intercalate]
          rw [text, unescapeList_of_end (unescape?_escape c [])]
      | cons d symbols =>
          have text : List.intercalate [','] ((c :: d :: symbols).map escape) =
              escape c ++ ',' :: List.intercalate [','] ((d :: symbols).map escape) := by
            simp [List.intercalate]
          rw [text, unescapeList_of_comma (unescape?_escape c _), ih (List.cons_ne_nil d symbols),
            Option.map_some]

end PatternAutomata.Text
