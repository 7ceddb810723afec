/-!
# Anchors

A pattern always has to match the whole of an input, so anchors at its ends say nothing new.
`Body.ofPattern` drops a caret at the start and a dollar at the end before the pattern is read;
anywhere else they stand for themselves.  The body keeps the offset at which it starts, so that
errors are about places in the pattern and not in its body.

The caret is always an anchor.  The dollar may be escaped, and whether it is cannot be told from
the character before it: a backslash may be escaped itself.  So `Body.dropDollar` counts the
backslashes in front of the dollar, from the back, and drops it if their number is even.  This is
a backward look at a text that is otherwise only ever read forwards, and that it agrees with the
forward reading has to be shown.
-/

namespace PatternAutomata

/-- What is left of a pattern without its anchors, and the offset at which it starts: one if there
was a caret, and zero otherwise. -/
structure Body where
  text : List Char
  offset : Nat
  deriving DecidableEq

namespace Body

/-- The text without a dollar at its end.  A dollar after an odd number of backslashes is escaped
and stays.  Only one dollar is dropped, so a second one before it stands for itself. -/
def dropDollar (text : List Char) : List Char :=
  match text.reverse with
  | '$' :: before =>
    if (before.takeWhile (· == '\\')).length % 2 = 0 then before.reverse else text
  | _ => text

/-- The pattern without a caret at its start and an unescaped dollar at its end. -/
def ofPattern : List Char → Body
  | '^' :: rest => ⟨dropDollar rest, 1⟩
  | pattern => ⟨dropDollar pattern, 0⟩

theorem ofPattern_caret (rest : List Char) :
    ofPattern ('^' :: rest) = ⟨dropDollar rest, 1⟩ := rfl

theorem ofPattern_of_ne_caret {c : Char} (h : c ≠ '^') (rest : List Char) :
    ofPattern (c :: rest) = ⟨dropDollar (c :: rest), 0⟩ := by
  simp [ofPattern, h]

end Body

end PatternAutomata
