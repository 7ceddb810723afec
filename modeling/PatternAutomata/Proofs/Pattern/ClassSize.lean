import PatternAutomata.Proofs.Pattern.Classes
import PatternAutomata.Proofs.Pattern.Reading

/-!
# The size of bracket classes

A class with more symbols than the limit is refused.  A class within the limit may be refused as
well: a range is held against what the limit leaves over before its symbols are looked at, and
there it counts in full.  `Class.size_limit` says of every class when this happens, and
`Class.refused_of_overlap` is a class of four symbols that is refused under a limit of four.

## What a range spans

A range adds fewer symbols than it spans if it holds members that are there already, or if it
crosses the gap among the code points.  Then it may be too much for the class although its symbols
are not (`Class.Overfull`).  So the order of the items matters: where a range precedes the members
that it holds, nothing is counted twice.  If every range adds what it spans (`Class.Counted`), the
class is refused just when it is too large.

## What comes of reading a class

`Class.Outcome` says it in two lines: the symbols, or a refusal at the place where the class was
opened.  It is stated of a class as a text of its own, of a class that is all of a pattern, and of
a class that stands anywhere in a pattern.  The last of these is about the token of the class,
since what happens to a whole pattern depends on what else there is in it.
-/

namespace PatternAutomata

namespace ClassItem

/-- More items have no fewer symbols, so a class that is within the limit is so from its
beginning. -/
theorem size_symbolsOf_le (front back : List ClassItem) :
    (symbolsOf front).size ≤ (symbolsOf (front ++ back)).size := by
  induction back generalizing front with
  | nil => rw [List.append_nil]
  | cons item back ih =>
      calc (symbolsOf front).size
          ≤ (symbolsOf (front ++ [item])).size := by
            rw [symbolsOf_append_singleton]
            exact Std.ExtTreeSet.size_left_le_size_union
        _ ≤ (symbolsOf (front ++ item :: back)).size := by
            rw [List.append_cons front item back]
            exact ih _

/-- An item that is not too much for a class leaves it within the limit, as it adds no more than
it was counted for. -/
theorem size_union_le_of_not_exceeds {limit : Nat} {members : Alphabet} {item : ClassItem}
    (h : ¬ item.Exceeds limit members) : (members ∪ item.symbols).size ≤ limit := by
  cases item with
  | single m =>
      rw [union_symbols_single]
      exact Nat.le_of_not_lt h
  | range first last =>
      calc (members ∪ Alphabet.interval first.char last.char).size
          ≤ members.size + (Alphabet.interval first.char last.char).size :=
            Std.ExtTreeSet.size_union_le_size_add_size
        _ ≤ members.size + Alphabet.span first.char last.char :=
            Nat.add_le_add_left (Alphabet.size_interval_le _ _) _
        _ ≤ limit := Nat.le_of_not_lt h

end ClassItem

namespace Item

/-- An item that is too much for a class is refused, at the place where the class was opened. -/
theorem addTo_of_exceeds {limit start : Nat} {members : Alphabet} {item : Item}
    (hascending : item.bare.Ascending) (hexceeds : item.bare.Exceeds limit members) :
    item.addTo limit start members = .error (.malformed (.classTooLarge limit) start) := by
  cases item with
  | single p =>
      rw [addTo]
      exact if_pos hexceeds
  | range first last =>
      have hle : first.char ≤ last.char := hascending
      have hspan : limit < members.size + Alphabet.span first.char last.char := hexceeds
      rw [addTo, if_neg (Char.not_lt.2 hle), if_pos hspan]

/-- Items are refused if one of them is too much for what comes before it.  A range that descends
would be refused for another cause, and so they have to ascend. -/
theorem foldlM_addTo_of_exceeds {limit start : Nat} {items : List Item}
    {before front back : List ClassItem} {item : ClassItem}
    (hascending : ∀ item ∈ items.map bare, item.Ascending)
    (hitems : items.map bare = front ++ item :: back)
    (hexceeds : item.Exceeds limit (ClassItem.symbolsOf (before ++ front))) :
    items.foldlM (addTo limit start) (ClassItem.symbolsOf before) =
      .error (.malformed (.classTooLarge limit) start) := by
  induction items generalizing before front with
  | nil => cases front <;> cases hitems
  | cons first items ih =>
      obtain ⟨hfirst, hrest⟩ := List.forall_mem_cons.1 hascending
      rw [List.foldlM_cons]
      by_cases h : first.bare.Exceeds limit (ClassItem.symbolsOf before)
      · rw [addTo_of_exceeds hfirst h]
        rfl
      · rw [addTo_of_not_exceeds hfirst h, Error.ok_bind, ← ClassItem.symbolsOf_append_singleton]
        cases front with
        | nil =>
            -- the item that is too much is the first
            obtain ⟨rfl, -⟩ := List.cons.inj hitems
            rw [List.append_nil] at hexceeds
            exact absurd hexceeds h
        | cons next front =>
            obtain ⟨rfl, hback⟩ := List.cons.inj hitems
            refine ih hrest hback ?_
            rw [List.append_assoc]
            exact hexceeds

end Item

namespace Class

variable {cls : Class} {limit : Nat}

/-! ### Classes that trip a limit -/

/-- `cls.Overfull limit`: a range of the class spans more than what the items before it leave over
of the limit. -/
def Overfull (limit : Nat) (cls : Class) : Prop :=
  ∃ front first last back, cls.items = front ++ .range first last :: back ∧
    limit < (ClassItem.symbolsOf front).size + Alphabet.span first.char last.char

/-- Every range of the class adds as many symbols as it spans: it holds none that the items before
it have, and it lies on one side of the gap among the code points. -/
def Counted (cls : Class) : Prop :=
  ∀ front first last back, cls.items = front ++ .range first last :: back →
    (∀ c ∈ ClassItem.symbolsOf front, ¬ (first.char ≤ c ∧ c ≤ last.char)) ∧
      (last.char < '\ue000' ∨ '\ud7ff' < first.char)

theorem size_symbolsOf_le_symbols {front back : List ClassItem}
    (hitems : cls.items = front ++ back) :
    (ClassItem.symbolsOf front).size ≤ cls.symbols.size := by
  have hle := ClassItem.size_symbolsOf_le front back
  rwa [← hitems] at hle

/-- **A class trips the limit if it is too large, or overfull.**  The first is what a reader would
expect; the second comes from counting a range before it is merged. -/
theorem trips_iff : cls.Trips limit ↔ limit < cls.symbols.size ∨ cls.Overfull limit := by
  constructor
  · rintro ⟨front, item, back, hitems, hexceeds⟩
    cases item with
    | single m =>
        have hle := size_symbolsOf_le_symbols (hitems.trans (List.append_cons ..))
        rw [ClassItem.symbolsOf_append_singleton, ClassItem.union_symbols_single] at hle
        exact .inl (Nat.lt_of_lt_of_le hexceeds hle)
    | range first last => exact .inr ⟨front, first, last, back, hitems, hexceeds⟩
  · rintro (hlarge | ⟨front, first, last, back, hitems, hspan⟩)
    · -- if no item were too much, the last one would leave the class within the limit
      by_contra hnot
      obtain ⟨front, item, hitems⟩ := (List.eq_nil_or_concat' cls.items).resolve_left cls.nonempty
      have hfits : ¬ item.Exceeds limit (ClassItem.symbolsOf front) :=
        fun h => hnot ⟨front, item, [], hitems, h⟩
      have hle := ClassItem.size_union_le_of_not_exceeds hfits
      rw [← ClassItem.symbolsOf_append_singleton, ← hitems] at hle
      exact Nat.not_lt.2 hle hlarge
    · exact ⟨front, .range first last, back, hitems, hspan⟩

/-- **If its ranges are counted right, a class trips the limit just when it is too large.** -/
theorem Counted.trips_iff (counted : cls.Counted) : cls.Trips limit ↔ limit < cls.symbols.size := by
  rw [Class.trips_iff, or_iff_left_of_imp]
  rintro ⟨front, first, last, back, hitems, hspan⟩
  obtain ⟨hdisjoint, hgap⟩ := counted front first last back hitems
  have hascending : first.char ≤ last.char := by
    refine cls.ascending (.range first last) ?_
    rw [hitems]
    simp
  have hle := size_symbolsOf_le_symbols (hitems.trans (List.append_cons ..))
  have hadd : (ClassItem.symbolsOf front ∪ Alphabet.interval first.char last.char).size =
      (ClassItem.symbolsOf front).size + (Alphabet.interval first.char last.char).size :=
    Std.ExtTreeSet.size_union_of_not_mem fun c hc hmem =>
      hdisjoint c hc (Alphabet.mem_interval.1 hmem)
  rw [Alphabet.size_interval hascending hgap] at hadd
  rw [ClassItem.symbolsOf_append_singleton] at hle
  exact Nat.lt_of_lt_of_le hspan (hadd ▸ hle)

/-! ### What comes of reading a class -/

/-- `cls.Outcome limit start outcome`: a class that does not trip the limit gives its symbols, and
one that does is refused, at the place where it was opened. -/
structure Outcome (limit start : Nat) (cls : Class) (outcome : Except Error Alphabet) : Prop where
  fits : ¬ cls.Trips limit → outcome = .ok cls.symbols
  trips : cls.Trips limit → outcome = .error (.malformed (.classTooLarge limit) start)

/-- **A class is read as its symbols, or refused where it was opened.**  The class may stand at
any offset, and its pieces with it. -/
theorem members_outcome (cls : Class) (limit offset start : Nat) :
    cls.Outcome limit start
      ((⟨Member.pieces offset cls.members, .closed⟩ : Bracket).members limit start) := by
  refine ⟨fun h => members_of_not_trips h offset start, ?_⟩
  rintro ⟨front, item, back, hitems, hexceeds⟩
  have hbare := cls.map_bare_items offset
  have hrefused : (Item.ofPieces .closed (Member.pieces offset cls.members)).foldlM
      (Item.addTo limit start) (ClassItem.symbolsOf []) =
        .error (.malformed (.classTooLarge limit) start) :=
    Item.foldlM_addTo_of_exceeds (hbare ▸ cls.ascending) (hbare.trans hitems) hexceeds
  rw [Bracket.members_of_head_ne, Bracket.items]
  · exact congrArg (· >>= Bracket.checked start .closed) hrefused
  · rw [Member.map_member_pieces]
    exact cls.affirmative

/-! ### The limit -/

/-- Wherever a class stands, it is read as one token, and what follows is read as if the class
were not there. -/
theorem scan_text (cls : Class) (offset : Nat) (rest : List Char) :
    Token.scan offset (cls.text ++ rest) =
      (offset, .bracket ⟨Member.pieces (offset + 1) cls.members, .closed⟩) ::
        Token.scan (offset + cls.text.length) rest :=
  (Token.Written.bracket cls.legal).scan_append rest

/-- **The limit on the size of a class.**  A class trips the limit if it is too large or if one of
its ranges spans too much, which comes to the same if every range adds what it spans.  A class
that does not trip the limit is read as its symbols, and one that does is refused where it was
opened: as a text of its own, as a pattern, and wherever it stands in a pattern. -/
theorem size_limit (config : Config) (strategy : Strategy) (cls : Class) :
    let limit := config.maxClassSize
    (cls.Trips limit ↔ limit < cls.symbols.size ∨ cls.Overfull limit) ∧
    (cls.Counted → (cls.Trips limit ↔ limit < cls.symbols.size)) ∧
    cls.Outcome limit 0 (Bracket.membersOf limit cls.text) ∧
    (∃ outcome, cls.Outcome limit 0 outcome ∧
      Regex.parse config strategy cls.text = Regex.oneOf <$> outcome) ∧
    (∀ offset rest, ∃ b, Token.scan offset (cls.text ++ rest) =
        (offset, .bracket b) :: Token.scan (offset + cls.text.length) rest ∧
      cls.Outcome limit offset (b.members limit offset)) := by
  intro limit
  have hscan := cls.scan_text 0 []
  rw [List.append_nil, Token.scan_nil] at hscan
  refine ⟨trips_iff, fun counted => counted.trips_iff, ?_, ?_, ?_⟩
  · rw [Bracket.membersOf_of_scan hscan]
    exact cls.members_outcome limit 1 0
  · exact ⟨_, cls.members_outcome limit 1 0, Regex.parse_of_scan hscan⟩
  · exact fun offset rest =>
      ⟨_, cls.scan_text offset rest, cls.members_outcome limit (offset + 1) offset⟩

/-- Two ranges that overlap have four symbols together, and they are refused under a limit of
four, for having more than four symbols. -/
theorem refused_of_overlap :
    ∃ cls : Class, cls.text = "[a-cb-d]".toList ∧ cls.symbols.size = 4 ∧
      Bracket.membersOf 4 cls.text = .error (.malformed (.classTooLarge 4) 0) ∧
      Regex.parse { maxClassSize := 4 } .hash cls.text =
        .error (.malformed (.classTooLarge 4) 0) := by
  let cls : Class :=
    { items := [.range ⟨'a', false⟩ ⟨'c', false⟩, .range ⟨'b', false⟩ ⟨'d', false⟩]
      nonempty := by decide
      legal := by decide
      ascending := by decide
      unambiguous := trivial
      affirmative := by decide }
  exact ⟨cls, rfl, by decide, by decide, rfl⟩

end Class

end PatternAutomata
