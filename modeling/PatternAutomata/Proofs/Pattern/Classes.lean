import PatternAutomata.Config
import PatternAutomata.Pattern.Bracket
import PatternAutomata.Proofs.Error
import PatternAutomata.Proofs.Pattern.Scanning

/-!
# What bracket classes are read as

The pieces of a class fall into items in exactly one way (`Item.map_bare_ofPieces`), and the
symbols that are read are those of the items (`Bracket.members_class`).  A class of the grammar is
read unless it trips the limit on its size (`Class.members_of_not_trips`).

## Items with and without places

A class that has been read has pieces with offsets, which are needed to blame the right character.
The grammar has members without them.  `Item.bare` leaves out the places, and `Piece.member` those
of pieces; all comparison is between what remains.

## Which items there are

A dash between two members is the sign of a range, and the reader takes it for one as soon as it
can.  In the grammar this is a condition on lists of items, `ClassItem.Unambiguous`.  The items
that the reader makes satisfy it, and lists that satisfy it and are written with the same members
are equal.

## Refusals on the way

Items are taken in one after another, and each is held against the limit with what came before it.
Whether one is too much therefore depends on its place in the list, and `Class.Trips` says so.
-/

namespace PatternAutomata

open Error (Yields)

theorem Piece.isDash_iff {p : Piece} : p.isDash = true ↔ p.member = .dash := by
  simp [Piece.isDash, Piece.member, Member.dash]

theorem Piece.isCaret_iff {p : Piece} : p.isCaret = true ↔ p.member = .caret := by
  simp [Piece.isCaret, Piece.member, Member.caret]

namespace ClassItem

/-- The first member of a class is that of its first item, as every item has a member. -/
theorem head?_flatMap_members (item : ClassItem) (rest : List ClassItem) :
    ((item :: rest).flatMap members).head? = item.members.head? := by
  cases item <;> rfl

/-- The symbols of some items together, taken in from the first to the last. -/
def symbolsOf (items : List ClassItem) : Alphabet :=
  items.foldl (fun symbols item => symbols ∪ item.symbols) ∅

theorem symbolsOf_append_singleton (items : List ClassItem) (item : ClassItem) :
    symbolsOf (items ++ [item]) = symbolsOf items ∪ item.symbols := by
  rw [symbolsOf, List.foldl_append]
  rfl

/-- A single member adds its symbol, if the class does not hold it already. -/
theorem union_symbols_single (symbols : Alphabet) (m : Member) :
    symbols ∪ (single m).symbols = symbols.insert m.char := by
  ext c
  rw [Std.ExtTreeSet.mem_insert, Std.ExtTreeSet.mem_union_iff, mem_symbols,
    Std.LawfulEqCmp.compare_eq_iff_eq, or_comm, eq_comm]
  rfl

/-- `item.Exceeds limit members`: the item is too much for a class that holds `members` already.
A range counts in full, also where it holds members or code points that are no symbols. -/
def Exceeds (limit : Nat) (members : Alphabet) : ClassItem → Prop
  | single m => limit < (members.insert m.char).size
  | range first last => limit < members.size + Alphabet.span first.char last.char

instance (limit : Nat) (members : Alphabet) : (item : ClassItem) →
    Decidable (item.Exceeds limit members)
  | single _ => inferInstanceAs (Decidable (_ < _))
  | range _ _ => inferInstanceAs (Decidable (_ < _))

theorem Unambiguous.tail {item : ClassItem} {rest : List ClassItem}
    (h : Unambiguous (item :: rest)) : Unambiguous rest := by
  cases rest with
  | nil => trivial
  | cons next rest =>
      cases item with
      | single m => exact h.2
      | range first last => exact h

end ClassItem

namespace Item

/-- An item without the places of its members, as it is in the grammar. -/
def bare : Item → ClassItem
  | single p => .single p.member
  | range first last => .range first.member last.member

/-! ### The items of the text of a class -/

/-- The items are written with the members of the text, none left out and none added. -/
theorem flatMap_members_ofPieces (ps : List Piece) :
    ((ofPieces .closed ps).map bare).flatMap ClassItem.members = ps.map Piece.member := by
  fun_induction ofPieces .closed ps with
  | case1 => rfl
  | case2 p => rfl
  | case3 p q offset hdash hending => cases hending
  | case4 p q => rfl
  | case5 p q r rest hdash ih =>
      rw [List.map_cons, List.flatMap_cons, ih]
      simp [bare, ClassItem.members, Piece.isDash_iff.1 hdash]
  | case6 p q r rest hdash ih =>
      rw [List.map_cons, List.flatMap_cons, ih]
      simp [bare, ClassItem.members]

/-- The items that are read satisfy the condition of the grammar, since a dash is taken for the
sign of a range where it can be. -/
theorem unambiguous_ofPieces (ps : List Piece) :
    ClassItem.Unambiguous ((ofPieces .closed ps).map bare) := by
  fun_induction ofPieces .closed ps with
  | case1 => trivial
  | case2 p => trivial
  | case3 p q offset hdash hending => cases hending
  | case4 p q =>
      refine ⟨?_, trivial⟩
      intro h
      have hq : q.member = .dash := Option.some.inj h
      exact ⟨by rw [bare, hq], rfl⟩
  | case5 p q r rest hdash ih =>
      cases hitems : (ofPieces .closed rest).map bare with
      | nil =>
          rw [List.map_cons, hitems]
          trivial
      | cons item items =>
          rw [List.map_cons, hitems]
          rw [hitems] at ih
          exact ih
  | case6 p q r rest hdash ih =>
      have hmembers := flatMap_members_ofPieces (q :: r :: rest)
      cases hitems : (ofPieces .closed (q :: r :: rest)).map bare with
      | nil =>
          rw [List.map_cons, hitems]
          trivial
      | cons item items =>
          rw [List.map_cons, hitems]
          rw [hitems] at ih hmembers
          refine ⟨?_, ih⟩
          -- a dash behind `p` would have made a range of the three
          intro hhead
          have hq : some q.member = some Member.dash := by
            rw [← hhead, ← ClassItem.head?_flatMap_members item items, hmembers]
            rfl
          exact absurd (Piece.isDash_iff.2 (Option.some.inj hq)) hdash

/-- **The items of the text of a class are found again.**  It is here that the condition on items
is used: without it a text could be written by two lists. -/
theorem map_bare_ofPieces {items : List ClassItem} {ps : List Piece}
    (hmembers : items.flatMap ClassItem.members = ps.map Piece.member)
    (hunambiguous : ClassItem.Unambiguous items) :
    (ofPieces .closed ps).map bare = items := by
  induction items generalizing ps with
  | nil =>
      have hnil : ps = [] := List.map_eq_nil_iff.1 hmembers.symm
      subst hnil
      rfl
  | cons item items ih =>
      cases item with
      | single m =>
          obtain ⟨p, rest, rfl, rfl, hrest⟩ := List.map_eq_cons_iff.1 hmembers.symm
          replace hrest : rest.map Piece.member = items.flatMap ClassItem.members := hrest
          have htail := ih hrest.symm hunambiguous.tail
          match rest with
          | [] =>
              have hnil : items = [] := htail.symm
              rw [hnil]
              rfl
          | [q] =>
              rw [← htail]
              rfl
          | q :: r :: rest =>
              -- a dash behind a single member is the last member of a class
              have hdash : ¬ q.isDash = true := by
                intro hdash
                cases items with
                | nil => cases hrest
                | cons next items =>
                    have hhead : next.members.head? = some Member.dash := by
                      rw [← ClassItem.head?_flatMap_members next items, ← hrest,
                        ← Piece.isDash_iff.1 hdash]
                      rfl
                    obtain ⟨rfl, rfl⟩ := hunambiguous.1 hhead
                    simp [ClassItem.members] at hrest
              rw [ofPieces, if_neg hdash, List.map_cons, htail]
              rfl
      | range first last =>
          obtain ⟨p, rest, rfl, rfl, hrest⟩ := List.map_eq_cons_iff.1 hmembers.symm
          obtain ⟨q, rest, rfl, hq, hrest⟩ := List.map_eq_cons_iff.1 hrest
          obtain ⟨r, rest, rfl, rfl, hrest⟩ := List.map_eq_cons_iff.1 hrest
          replace hrest : rest.map Piece.member = items.flatMap ClassItem.members :=
            List.tail_eq_of_cons_eq hrest
          rw [ofPieces, if_pos (Piece.isDash_iff.2 hq), List.map_cons,
            ih hrest.symm hunambiguous.tail]
          rfl

/-! ### The symbols of items -/

/-- An item that is taken in adds its symbols, and it does not descend. -/
theorem addTo_ok {limit start : Nat} {members grown : Alphabet} {item : Item}
    (h : item.addTo limit start members = .ok grown) :
    item.bare.Ascending ∧ grown = members ∪ item.bare.symbols := by
  cases item with
  | single p =>
      simp only [addTo] at h
      split at h
      · cases h
      · cases h
        exact ⟨trivial, (ClassItem.union_symbols_single members p.member).symm⟩
  | range first last =>
      simp only [addTo] at h
      split at h
      · cases h
      · rename_i hascending
        split at h
        · cases h
        · split at h
          · cases h
          · cases h
            exact ⟨Char.not_lt.1 hascending, rfl⟩

/-- Items that are taken in one after another add their symbols, and none of them descends. -/
theorem foldlM_addTo_ok {limit start : Nat} {items : List Item} {members grown : Alphabet}
    (h : items.foldlM (addTo limit start) members = .ok grown) :
    (∀ item ∈ items.map bare, item.Ascending) ∧
      grown = (items.map bare).foldl (fun symbols item => symbols ∪ item.symbols) members := by
  induction items generalizing members with
  | nil =>
      cases h
      exact ⟨by simp, rfl⟩
  | cons item items ih =>
      rw [List.foldlM_cons] at h
      obtain ⟨next, hnext, hrest⟩ := Error.bind_eq_ok_iff.1 h
      obtain ⟨hascending, rfl⟩ := addTo_ok hnext
      obtain ⟨hall, rfl⟩ := ih hrest
      refine ⟨?_, rfl⟩
      intro i hi
      rcases List.mem_cons.1 hi with rfl | hi
      · exact hascending
      · exact hall i hi

/-- Where a class stands has no bearing on whether an item is taken in; it matters only to what is
blamed. -/
theorem addTo_congr {limit start start' : Nat} {members grown : Alphabet} {item item' : Item}
    (hbare : item.bare = item'.bare) (h : item.addTo limit start members = .ok grown) :
    item'.addTo limit start' members = .ok grown := by
  -- the items are written alike and ask for the same characters; only the place to blame differs
  cases item with
  | single p =>
      cases item' with
      | range first last => cases hbare
      | single q =>
          have hchar : p.char = q.char := congrArg Member.char (ClassItem.single.inj hbare)
          rw [addTo] at h ⊢
          rw [hchar] at h
          split at h
          · cases h
          · rename_i hsize
            rw [if_neg hsize]
            exact h
  | range first last =>
      cases item' with
      | single q => cases hbare
      | range first' last' =>
          obtain ⟨hfirst, hlast⟩ := ClassItem.range.inj hbare
          have hfirst : first.char = first'.char := congrArg Member.char hfirst
          have hlast : last.char = last'.char := congrArg Member.char hlast
          simp only [addTo] at h ⊢
          rw [hfirst, hlast] at h
          split at h
          · cases h
          · rename_i hascending
            split at h
            · cases h
            · rename_i hspan
              split at h
              · cases h
              · rename_i hsize
                rw [if_neg hascending, if_neg hspan, if_neg hsize]
                exact h

/-- An item that does not descend is taken in, unless it is too much. -/
theorem addTo_of_not_exceeds {limit start : Nat} {members : Alphabet} {item : Item}
    (hascending : item.bare.Ascending) (hfits : ¬ item.bare.Exceeds limit members) :
    item.addTo limit start members = .ok (members ∪ item.bare.symbols) := by
  have hok : ∃ grown, item.addTo limit start members = .ok grown := by
    cases item with
    | single p =>
        rw [addTo]
        exact ⟨_, if_neg hfits⟩
    | range first last =>
        have hle : first.char ≤ last.char := hascending
        have hspan : members.size + Alphabet.span first.char last.char ≤ limit :=
          Nat.le_of_not_lt hfits
        have hinterval := Alphabet.size_interval_le first.char last.char
        have hunion : (members ∪ Alphabet.interval first.char last.char).size ≤
            members.size + (Alphabet.interval first.char last.char).size :=
          Std.ExtTreeSet.size_union_le_size_add_size
        simp only [addTo]
        rw [if_neg (Char.not_lt.2 hle), if_neg (Nat.not_lt.2 hspan), if_neg (by omega)]
        exact ⟨_, rfl⟩
  obtain ⟨grown, hgrown⟩ := hok
  rw [hgrown, (addTo_ok hgrown).2]

/-- Items that do not descend are taken in after others, unless one is too much for what comes
before it. -/
theorem foldlM_addTo_of_not_exceeds {limit start : Nat} {items : List Item}
    {before : List ClassItem} (hascending : ∀ item ∈ items.map bare, item.Ascending)
    (hfits : ∀ front item back, items.map bare = front ++ item :: back →
      ¬ item.Exceeds limit (ClassItem.symbolsOf (before ++ front))) :
    items.foldlM (addTo limit start) (ClassItem.symbolsOf before) =
      .ok (ClassItem.symbolsOf (before ++ items.map bare)) := by
  induction items generalizing before with
  | nil => simp [pure, Except.pure]
  | cons item items ih =>
      rw [List.map_cons] at hascending hfits
      obtain ⟨hitem, hrest⟩ := List.forall_mem_cons.1 hascending
      have hfirst := hfits [] item.bare _ rfl
      rw [List.append_nil] at hfirst
      rw [List.foldlM_cons, addTo_of_not_exceeds hitem hfirst, Error.ok_bind,
        ← ClassItem.symbolsOf_append_singleton, ih hrest, List.append_assoc]
      · rfl
      · intro front next back heq
        rw [List.append_assoc]
        exact hfits (item.bare :: front) next back (by rw [heq]; rfl)

theorem foldlM_addTo_congr {limit start start' : Nat} {members grown : Alphabet}
    {items items' : List Item} (hbare : items.map bare = items'.map bare)
    (h : items.foldlM (addTo limit start) members = .ok grown) :
    items'.foldlM (addTo limit start') members = .ok grown := by
  induction items generalizing items' members with
  | nil =>
      rw [List.map_eq_nil_iff.1 hbare.symm]
      exact h
  | cons item items ih =>
      obtain ⟨item', rest, rfl, hitem, hrest⟩ := List.map_eq_cons_iff.1 hbare.symm
      rw [List.foldlM_cons] at h ⊢
      obtain ⟨next, hnext, h⟩ := Error.bind_eq_ok_iff.1 h
      rw [addTo_congr hitem.symm hnext]
      exact ih hrest.symm h

end Item

/-! ### Classes -/

/-- The items of the text of a class are those of the class. -/
theorem Class.map_bare_items (cls : Class) (offset : Nat) :
    (Item.ofPieces .closed (Member.pieces offset cls.members)).map Item.bare = cls.items :=
  Item.map_bare_ofPieces (Member.map_member_pieces _ _).symm cls.unambiguous

namespace Bracket

/-- What is left to check of a class once its items have been read: that it is closed, and that it
is not empty. -/
def checked (start : Nat) (ending : BracketEnd) (members : Alphabet) : Except Error Alphabet :=
  match ending with
  | .dangling offset => throw (.malformed .trailingBackslash offset)
  | .missing => throw (.malformed .unclosedClass start)
  | .closed =>
    if members.isEmpty then throw (.malformed .emptyClass start)
    else return members

theorem checked_eq_ok_iff {start : Nat} {ending : BracketEnd} {members symbols : Alphabet} :
    checked start ending members = .ok symbols ↔
      ending = .closed ∧ members = symbols ∧ symbols.isEmpty = false := by
  cases ending with
  | dangling offset => simp [checked, throw, throwThe, MonadExceptOf.throw]
  | missing => simp [checked, throw, throwThe, MonadExceptOf.throw]
  | closed =>
      cases hempty : members.isEmpty with
      | true =>
          simp only [checked, hempty, if_true, true_and]
          constructor
          · rintro ⟨⟩
          · rintro ⟨rfl, hsymbols⟩
            rw [hempty] at hsymbols
            cases hsymbols
      | false =>
          simp only [checked, hempty, true_and]
          constructor
          · rintro ⟨⟩
            exact ⟨rfl, hempty⟩
          · rintro ⟨rfl, _⟩
            rfl

/-- A class that does not start with a caret is read item by item, and its end is checked
afterwards. -/
theorem members_of_head_ne {limit start : Nat} {b : Bracket}
    (h : (b.pieces.map Piece.member).head? ≠ some .caret) :
    b.members limit start =
      b.items.foldlM (Item.addTo limit start) ∅ >>= checked start b.ending := by
  obtain ⟨ps, ending⟩ := b
  cases ps with
  | nil => rfl
  | cons p ps =>
      have hcaret : ¬ p.isCaret = true := by
        rw [Piece.isCaret_iff]
        simpa using h
      simp only [Bracket.members, hcaret]
      rfl

/-- What it takes for a class to be read.  The conditions on its end, its start and its items are
those that the grammar asks of a class. -/
theorem members_eq_ok_iff {limit start : Nat} {b : Bracket} {symbols : Alphabet} :
    b.members limit start = .ok symbols ↔
      b.ending = .closed ∧ (b.pieces.map Piece.member).head? ≠ some .caret ∧
        b.items.foldlM (Item.addTo limit start) ∅ = .ok symbols ∧ symbols.isEmpty = false := by
  by_cases hhead : (b.pieces.map Piece.member).head? = some .caret
  · -- the complement of a class is not supported
    obtain ⟨_ | ⟨p, ps⟩, ending⟩ := b
    · cases hhead
    · have hcaret : p.isCaret = true := by
        rw [Piece.isCaret_iff]
        simpa using hhead
      simp only [Bracket.members, hcaret, if_true, hhead, ne_eq, not_true, false_and, and_false,
        iff_false]
      rintro ⟨⟩
  · rw [members_of_head_ne hhead, Error.bind_eq_ok_iff]
    simp only [checked_eq_ok_iff, ne_eq, hhead, not_false_iff, true_and]
    constructor
    · rintro ⟨members, hfold, hclosed, rfl, hempty⟩
      exact ⟨hclosed, hfold, hempty⟩
    · rintro ⟨hclosed, hfold, hempty⟩
      exact ⟨symbols, hfold, hclosed, rfl, hempty⟩

/-- **A class that is read is one of the grammar**, with its members and its symbols. -/
theorem exists_class {limit start offset : Nat} {ms : List Member} {symbols : Alphabet}
    (hlegal : ∀ m ∈ ms, m.Legal)
    (h : (⟨Member.pieces offset ms, .closed⟩ : Bracket).members limit start = .ok symbols) :
    ∃ cls : Class, cls.members = ms ∧ cls.symbols = symbols := by
  obtain ⟨_, hhead, hfold, hnonempty⟩ := members_eq_ok_iff.1 h
  obtain ⟨hascending, hsymbols⟩ := Item.foldlM_addTo_ok hfold
  have hmembers := Item.flatMap_members_ofPieces (Member.pieces offset ms)
  rw [Bracket.items] at hascending hsymbols
  rw [Member.map_member_pieces] at hmembers hhead
  refine ⟨⟨(Item.ofPieces .closed (Member.pieces offset ms)).map Item.bare, ?_, ?_, hascending,
    Item.unambiguous_ofPieces _, ?_⟩, hmembers, hsymbols.symm⟩
  · intro hnil
    rw [hnil] at hsymbols
    rw [hsymbols] at hnonempty
    simp at hnonempty
  · rw [hmembers]
    exact hlegal
  · rw [hmembers]
    exact hhead

/-- **What is read are the symbols of the class**, if anything is. -/
theorem members_class {limit start offset : Nat} {cls : Class} {symbols : Alphabet}
    (h : (⟨Member.pieces offset cls.members, .closed⟩ : Bracket).members limit start =
      .ok symbols) :
    symbols = cls.symbols := by
  obtain ⟨_, _, hfold, _⟩ := members_eq_ok_iff.1 h
  obtain ⟨_, rfl⟩ := Item.foldlM_addTo_ok hfold
  rw [Bracket.items, cls.map_bare_items]
  rfl

/-- Where a class stands has no bearing on whether it is read, nor on what is read. -/
theorem members_congr {limit start offset start' offset' : Nat} {ms : List Member}
    {symbols : Alphabet}
    (h : (⟨Member.pieces offset ms, .closed⟩ : Bracket).members limit start = .ok symbols) :
    (⟨Member.pieces offset' ms, .closed⟩ : Bracket).members limit start' = .ok symbols := by
  obtain ⟨_, hhead, hfold, hnonempty⟩ := members_eq_ok_iff.1 h
  have hbare : (Item.ofPieces .closed (Member.pieces offset' ms)).map Item.bare =
      (Item.ofPieces .closed (Member.pieces offset ms)).map Item.bare := by
    refine Item.map_bare_ofPieces ?_ (Item.unambiguous_ofPieces _)
    rw [Item.flatMap_members_ofPieces, Member.map_member_pieces, Member.map_member_pieces]
  rw [Member.map_member_pieces] at hhead
  refine members_eq_ok_iff.2 ⟨rfl, ?_, Item.foldlM_addTo_congr hbare.symm hfold, hnonempty⟩
  rw [Member.map_member_pieces]
  exact hhead

end Bracket

namespace Class

/-- A class is readable if its text is read as its symbols, wherever it stands, up to some
causes. -/
def Readable (E : Error → Prop) (config : Config) (cls : Class) : Prop :=
  ∀ offset start, Yields E
    ((⟨Member.pieces offset cls.members, .closed⟩ : Bracket).members config.maxClassSize start)
    (· = cls.symbols)

theorem symbols_ne_empty (cls : Class) : cls.symbols ≠ ∅ := by
  obtain ⟨item, hitem⟩ := List.exists_mem_of_ne_nil cls.items cls.nonempty
  have hascending := cls.ascending item hitem
  obtain ⟨c, hc⟩ : ∃ c, item.Holds c := by
    cases item with
    | single m => exact ⟨m.char, rfl⟩
    | range first last => exact ⟨first.char, Char.le_refl _, hascending⟩
  exact Std.ExtTreeSet.ne_empty_of_mem (mem_symbols.2 ⟨item, hitem, hc⟩)

/-- What is read are the symbols of the class, if anything is.  With all causes let pass, every
class is readable. -/
theorem readable (config : Config) (cls : Class) : cls.Readable (fun _ => True) config :=
  fun _ _ => .of_ok (fun _ => trivial) fun _ h => Bracket.members_class h

/-- A class trips a limit if one of its items is too much after the items before it.  The order of
the items is part of this. -/
def Trips (limit : Nat) (cls : Class) : Prop :=
  ∃ front item back, cls.items = front ++ item :: back ∧
    item.Exceeds limit (ClassItem.symbolsOf front)

/-- A class that does not trip the limit is read as its symbols, wherever it stands. -/
theorem members_of_not_trips {limit : Nat} {cls : Class} (h : ¬ cls.Trips limit)
    (offset start : Nat) :
    (⟨Member.pieces offset cls.members, .closed⟩ : Bracket).members limit start =
      .ok cls.symbols := by
  have hfold : (Item.ofPieces .closed (Member.pieces offset cls.members)).foldlM
      (Item.addTo limit start) (ClassItem.symbolsOf []) = .ok cls.symbols := by
    rw [Item.foldlM_addTo_of_not_exceeds (cls.map_bare_items offset ▸ cls.ascending),
      cls.map_bare_items offset]
    · rfl
    · intro front item back heq hexceeds
      exact h ⟨front, item, back, (cls.map_bare_items offset).symm.trans heq, hexceeds⟩
  refine Bracket.members_eq_ok_iff.2 ⟨rfl, ?_, hfold,
    Std.ExtTreeSet.isEmpty_eq_false_iff.2 cls.symbols_ne_empty⟩
  rw [Member.map_member_pieces]
  exact cls.affirmative

/-- **Every class is readable that does not trip the limit**, whatever causes are let pass. -/
theorem readable_of_not_trips {E : Error → Prop} {config : Config} {cls : Class}
    (h : ¬ cls.Trips config.maxClassSize) : cls.Readable E config := by
  intro offset start
  rw [members_of_not_trips h]
  exact .ok rfl

end Class

end PatternAutomata
