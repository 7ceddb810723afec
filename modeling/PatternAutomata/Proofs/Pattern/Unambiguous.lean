import PatternAutomata.Proofs.Pattern.Classes

/-!
# The grammar is unambiguous

A text has one derivation at most (`Derivation.eq_of_text_eq`).  It falls into lexemes in one way
only, and from its lexemes a derivation can be built up again from left to right.

## Lexemes

A lexeme is a character, an escaped character, or a whole class.  The first lexeme of a text is
known from the text: a backslash makes an escape, a bracket opens a class, and a class ends at the
first bracket that closes it.  A class itself is known from its members, by the condition on its
items.

## Building a derivation up again

Derivations are rebuilt like trees are read, with the innermost open group in front and the groups
around it on a stack, but nothing is checked.  What is built from texts that are not in the
grammar does not matter, so a lexeme that fits nowhere is passed over.  `Derivation.rebuilds` says
for each category what its lexemes add to what has been built.  For an expression that is the
derivation itself; so a derivation is a function of its lexemes, and hence of its text.
-/

namespace PatternAutomata

/-! ### Classes -/

namespace Member

/-- A legal member does not start like the end of a class. -/
theorem Legal.text_append_ne {m : Member} (hm : m.Legal) (v w : List Char) :
    m.text ++ v ≠ ']' :: w := by
  obtain ⟨c, escaped⟩ := m
  cases escaped with
  | true =>
      intro h
      exact absurd (List.cons.inj h).1 (by decide)
  | false =>
      intro h
      exact absurd (List.cons.inj h).1 (hm rfl).1

/-- The first member of a text is known from the text. -/
theorem eq_of_text_append_eq {m m' : Member} {v w : List Char} (hm : m.Legal) (hm' : m'.Legal)
    (h : m.text ++ v = m'.text ++ w) : m = m' ∧ v = w := by
  obtain ⟨c, escaped⟩ := m
  obtain ⟨c', escaped'⟩ := m'
  cases escaped with
  | true =>
      cases escaped' with
      | true =>
          obtain ⟨-, h⟩ := List.cons.inj h
          obtain ⟨rfl, rfl⟩ := List.cons.inj h
          exact ⟨rfl, rfl⟩
      | false => exact absurd (List.cons.inj h).1.symm (hm' rfl).2
  | false =>
      cases escaped' with
      | true => exact absurd (List.cons.inj h).1 (hm rfl).2
      | false =>
          obtain ⟨rfl, rfl⟩ := List.cons.inj h
          exact ⟨rfl, rfl⟩

/-- A closing bracket ends the members of a class, so they are known from the text. -/
theorem eq_of_flatMap_text_append_eq {ms ms' : List Member} {v w : List Char}
    (hms : ∀ m ∈ ms, m.Legal) (hms' : ∀ m ∈ ms', m.Legal)
    (h : ms.flatMap text ++ ']' :: v = ms'.flatMap text ++ ']' :: w) : ms = ms' ∧ v = w := by
  induction ms generalizing ms' with
  | nil =>
      cases ms' with
      | nil => exact ⟨rfl, (List.cons.inj h).2⟩
      | cons m' ms' =>
          rw [List.flatMap_cons, List.append_assoc] at h
          exact absurd h.symm ((hms' m' List.mem_cons_self).text_append_ne _ _)
  | cons m ms ih =>
      rw [List.flatMap_cons, List.append_assoc] at h
      cases ms' with
      | nil => exact absurd h ((hms m List.mem_cons_self).text_append_ne _ _)
      | cons m' ms' =>
          obtain ⟨hm, htail⟩ := List.forall_mem_cons.1 hms
          obtain ⟨hm', htail'⟩ := List.forall_mem_cons.1 hms'
          rw [List.flatMap_cons, List.append_assoc] at h
          obtain ⟨heq, hrest⟩ := eq_of_text_append_eq hm hm' h
          obtain ⟨rfl, rfl⟩ := ih htail htail' hrest
          exact ⟨by rw [heq], rfl⟩

end Member

/-- **A class is known from the members that it is written with.** -/
theorem Class.ext_members {cls cls' : Class} (h : cls.members = cls'.members) : cls = cls' := by
  have hitems : cls.items = cls'.items := by
    have hpieces := Member.map_member_pieces cls.members 0
    rw [← Item.map_bare_ofPieces hpieces.symm cls.unambiguous,
      ← Item.map_bare_ofPieces (hpieces.trans h).symm cls'.unambiguous]
  cases cls
  cases cls'
  cases hitems
  rfl

/-! ### Lexemes -/

/-- A part of a text that is read as one. -/
inductive Lexeme where
  | char (c : Char) (hescape : c ≠ '\\') (hopen : c ≠ '[')
  | escaped (c : Char)
  | bracket (cls : Class)

namespace Lexeme

/-- The text of a lexeme. -/
def text : Lexeme → List Char
  | char c _ _ => [c]
  | escaped c => ['\\', c]
  | bracket cls => cls.text

/-- The first lexeme of a text is known from the text. -/
theorem eq_of_text_append_eq {x y : Lexeme} {v w : List Char}
    (h : x.text ++ v = y.text ++ w) : x = y ∧ v = w := by
  cases x with
  | char c hescape hopen =>
      cases y with
      | char c' _ _ =>
          obtain ⟨rfl, rfl⟩ := List.cons.inj h
          exact ⟨rfl, rfl⟩
      | escaped c' => exact absurd (List.cons.inj h).1 hescape
      | bracket cls => exact absurd (List.cons.inj h).1 hopen
  | escaped c =>
      cases y with
      | char c' hescape _ => exact absurd (List.cons.inj h).1.symm hescape
      | escaped c' =>
          obtain ⟨-, h⟩ := List.cons.inj h
          obtain ⟨rfl, rfl⟩ := List.cons.inj h
          exact ⟨rfl, rfl⟩
      | bracket cls => exact absurd (List.cons.inj h).1 (by decide)
  | bracket cls =>
      cases y with
      | char c' _ hopen => exact absurd (List.cons.inj h).1.symm hopen
      | escaped c' => exact absurd (List.cons.inj h).1 (by decide)
      | bracket cls' =>
          simp only [text, Class.text, List.cons_append, List.append_assoc, List.cons.injEq,
            true_and] at h
          obtain ⟨hmembers, rfl⟩ := Member.eq_of_flatMap_text_append_eq cls.legal cls'.legal h
          rw [Class.ext_members hmembers]
          exact ⟨rfl, rfl⟩

theorem text_ne_nil (x : Lexeme) : x.text ≠ [] := by
  cases x <;> simp [text, Class.text]

/-- **A text falls into lexemes in one way only.** -/
theorem eq_of_flatMap_text_eq {xs ys : List Lexeme}
    (h : xs.flatMap text = ys.flatMap text) : xs = ys := by
  induction xs generalizing ys with
  | nil =>
      cases ys with
      | nil => rfl
      | cons y ys =>
          rw [List.flatMap_cons, List.flatMap_nil] at h
          exact absurd (List.append_eq_nil_iff.1 h.symm).1 y.text_ne_nil
  | cons x xs ih =>
      cases ys with
      | nil =>
          rw [List.flatMap_cons, List.flatMap_nil] at h
          exact absurd (List.append_eq_nil_iff.1 h).1 x.text_ne_nil
      | cons y ys =>
          rw [List.flatMap_cons, List.flatMap_cons] at h
          obtain ⟨rfl, hrest⟩ := eq_of_text_append_eq h
          rw [ih hrest]

/-- The lexeme of a sign of repetition. -/
def sign (q : Quantifier) : Lexeme :=
  .char q.char (by cases q <;> decide) (by cases q <;> decide)

end Lexeme

theorem ne_of_not_mem_reserved {c : Char} (h : c ∉ reserved) : c ≠ '\\' ∧ c ≠ '[' := by
  simp only [reserved, List.mem_cons, not_or] at h
  exact ⟨h.2.2.2.2.2.2.2.2.1, h.2.2.2.2.2.2.2.1⟩

namespace Derivation

/-- The lexemes of a derived text, in order. -/
def lexemes {k : Category} : Derivation k → List Lexeme
  | alternative t => t.lexemes
  | either e t => e.lexemes ++ .char '|' (by decide) (by decide) :: t.lexemes
  | nothing => []
  | sequence fs => fs.lexemes
  | one f => f.lexemes
  | more fs f => fs.lexemes ++ f.lexemes
  | once a => a.lexemes
  | repeated f q => f.lexemes ++ [.sign q]
  | plain c h => [.char c (ne_of_not_mem_reserved h).1 (ne_of_not_mem_reserved h).2]
  | escaped c => [.escaped c]
  | dot => [.char '.' (by decide) (by decide)]
  | bracket cls => [.bracket cls]
  | group e => .char '(' (by decide) (by decide) :: e.lexemes ++
      [.char ')' (by decide) (by decide)]

theorem flatMap_text_lexemes {k : Category} (d : Derivation k) :
    d.lexemes.flatMap Lexeme.text = d.text := by
  induction d with
  | alternative t ih => exact ih
  | either e t ihe iht => simp [lexemes, text, Lexeme.text, ihe, iht]
  | nothing => rfl
  | sequence fs ih => exact ih
  | one f ih => exact ih
  | more fs f ihfs ihf => simp [lexemes, text, ihfs, ihf]
  | once a ih => exact ih
  | repeated f q ih => simp [lexemes, text, Lexeme.sign, Lexeme.text, ih]
  | plain c h => rfl
  | escaped c => rfl
  | dot => rfl
  | bracket cls => simp [lexemes, text, Lexeme.text]
  | group e ih => simp [lexemes, text, Lexeme.text, ih]

end Derivation

/-! ### Building a derivation up again -/

/-- What has been built of a group: the alternatives that are complete, the factors of the present
alternative without the last, and the last. -/
structure Rebuild.Group where
  alternatives : Option (Derivation .expression)
  front : Option (Derivation .factors)
  last : Option (Derivation .factor)

/-- What has been built of a derivation: the innermost open group, and the groups around it. -/
structure Rebuild where
  group : Rebuild.Group
  outer : List Rebuild.Group

namespace Rebuild

namespace Group

/-- Nothing has been built. -/
def start : Group := ⟨none, none, none⟩

/-- The factors of the present alternative. -/
def factors (g : Group) : Option (Derivation .factors) :=
  match g.last, g.front with
  | none, front => front
  | some f, none => some (.one f)
  | some f, some fs => some (.more fs f)

/-- The present alternative, which is the empty term if it has no factors. -/
def term (g : Group) : Derivation .term :=
  match g.factors with
  | none => .nothing
  | some fs => .sequence fs

/-- All of the group. -/
def expression (g : Group) : Derivation .expression :=
  match g.alternatives with
  | none => .alternative g.term
  | some e => .either e g.term

end Group

/-- Puts a factor behind what has been built, with the factor before it joined. -/
def addFactor (r : Rebuild) (f : Derivation .factor) : Rebuild :=
  { r with group := { r.group with front := r.group.factors, last := some f } }

/-- Takes in a character that stands for no symbol.  Where it fits nowhere, nothing is built. -/
def reservedStep (r : Rebuild) (c : Char) : Rebuild :=
  if c = '.' then r.addFactor (.once .dot)
  else if c = '|' then { r with group := ⟨some r.group.expression, none, none⟩ }
  else if c = '(' then
    ⟨.start, { r.group with front := r.group.factors, last := none } :: r.outer⟩
  else if c = ')' then
    match r.outer with
    | [] => r
    | around :: outer =>
      ⟨{ around with last := some (.once (.group r.group.expression)) }, outer⟩
  else
    match Quantifier.ofChar? c, r.group.last with
    | some q, some f => { r with group := { r.group with last := some (.repeated f q) } }
    | _, _ => r

/-- Takes in one lexeme. -/
def step (r : Rebuild) : Lexeme → Rebuild
  | .escaped c => r.addFactor (.once (.escaped c))
  | .bracket cls => r.addFactor (.once (.bracket cls))
  | .char c _ _ => if h : c ∉ reserved then r.addFactor (.once (.plain c h)) else r.reservedStep c

end Rebuild

namespace Derivation

open Rebuild (Group)

/-- **What the lexemes of a derivation build up**: the derivation, in the place of its category.
It is stated for any state that a part may be met in, as the induction needs. -/
def Rebuilds : {k : Category} → Derivation k → Prop
  | .atom, a => ∀ r : Rebuild, a.lexemes.foldl Rebuild.step r = r.addFactor (.once a)
  | .factor, f => ∀ r : Rebuild, f.lexemes.foldl Rebuild.step r = r.addFactor f
  | .factors, fs => ∀ (before : Option (Derivation .expression)) (outer : List Group),
      ∃ g : Group, fs.lexemes.foldl Rebuild.step ⟨⟨before, none, none⟩, outer⟩ = ⟨g, outer⟩ ∧
        g.alternatives = before ∧ g.factors = some fs
  | .term, t => ∀ (before : Option (Derivation .expression)) (outer : List Group),
      ∃ g : Group, t.lexemes.foldl Rebuild.step ⟨⟨before, none, none⟩, outer⟩ = ⟨g, outer⟩ ∧
        g.alternatives = before ∧ g.term = t
  | .expression, e => ∀ outer : List Group,
      ∃ g : Group, e.lexemes.foldl Rebuild.step ⟨.start, outer⟩ = ⟨g, outer⟩ ∧ g.expression = e

/-- **The lexemes of a derivation build it up again**, by induction over the derivation. -/
theorem rebuilds {k : Category} (d : Derivation k) : d.Rebuilds := by
  induction d with
  | alternative t ih =>
      intro outer
      obtain ⟨g, hg, halternatives, hterm⟩ := ih none outer
      refine ⟨g, hg, ?_⟩
      rw [Group.expression, halternatives, hterm]
  | either e t ihe iht =>
      intro outer
      obtain ⟨g, hg, hexpression⟩ := ihe outer
      obtain ⟨g', hg', halternatives, hterm⟩ := iht (some e) outer
      refine ⟨g', ?_, ?_⟩
      · rw [lexemes, List.foldl_append, hg, List.foldl_cons, ← hg', ← hexpression]
        rfl
      · rw [Group.expression, halternatives, hterm]
  | nothing =>
      intro before outer
      exact ⟨⟨before, none, none⟩, rfl, rfl, rfl⟩
  | sequence fs ih =>
      intro before outer
      obtain ⟨g, hg, halternatives, hfactors⟩ := ih before outer
      refine ⟨g, hg, halternatives, ?_⟩
      rw [Group.term, hfactors]
  | one f ih =>
      intro before outer
      exact ⟨_, ih _, rfl, rfl⟩
  | more fs f ihfs ihf =>
      intro before outer
      obtain ⟨g, hg, halternatives, hfactors⟩ := ihfs before outer
      refine ⟨{ g with front := g.factors, last := some f }, ?_, halternatives, ?_⟩
      · rw [lexemes, List.foldl_append, hg, ihf]
        rfl
      · rw [hfactors]
        rfl
  | once a ih => exact ih
  | repeated f q ih =>
      intro r
      rw [lexemes, List.foldl_append, ih]
      cases q <;> rfl
  | plain c h =>
      intro r
      exact dif_pos h
  | escaped c =>
      intro r
      rfl
  | dot =>
      intro r
      rfl
  | bracket cls =>
      intro r
      rfl
  -- the group around waits on the stack, with its last factor moved to the front
  | group e ih =>
      intro r
      obtain ⟨g, hg, hexpression⟩ := ih ({ r.group with front := r.group.factors, last := none } ::
        r.outer)
      rw [lexemes, List.cons_append, List.foldl_cons, List.foldl_append]
      show List.foldl Rebuild.step (e.lexemes.foldl Rebuild.step ⟨.start, _⟩) [_] = _
      rw [hg, ← hexpression]
      rfl

/-- **Derivations of the same text are the same.** -/
theorem eq_of_text_eq {e e' : Derivation .expression} (h : e.text = e'.text) : e = e' := by
  have hlexemes : e.lexemes = e'.lexemes := by
    apply Lexeme.eq_of_flatMap_text_eq
    rw [e.flatMap_text_lexemes, e'.flatMap_text_lexemes, h]
  obtain ⟨g, hg, hexpression⟩ := e.rebuilds []
  obtain ⟨g', hg', hexpression'⟩ := e'.rebuilds []
  rw [← hlexemes, hg] at hg'
  cases hg'
  exact hexpression.symm.trans hexpression'

end Derivation

end PatternAutomata
