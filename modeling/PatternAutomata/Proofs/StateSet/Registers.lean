import Mathlib.Data.Finset.Sort
import PatternAutomata.StateSet.Registers
import PatternAutomata.Proofs.Nfa.Stored

/-!
# Registers answer by the sets alone

Whatever holds the sets of some registers, the same comes back for the same requests: what a
register answers is told by the finite set in it.  It does not depend on the room that was asked
for, on the order in which states came in, on the hasher, or on the layout.

## The specification is a machine too

A statement about answers needs something for them to be equal to.  `Ledger` is the machine of the
registers with the representation taken out: a register has a `Finset`, the map is a function from
finite sets to values, and there are no rooms, no buckets and no layouts that an answer could
depend on.  `Registers.Represents` says that registers hold what a ledger has, by
`StateStore.content` for the sets and by `find?` for the map.

`Registers.Represents.perform` is the one step: a request leaves registers and ledger in step and
gets the same reply from both.  `Registers.Represents.runFrom` is the run.  Equality between two
ways of holding sets is never proved directly; both are equal to the ledger.

## Where hashing could go wrong

A map finds a key only if it looks in the right bucket.  So the law that carries the proof is
`LawfulKeyStore.told_eq`: sets with the same states tell a hasher the same.  For hash tables it
holds since the entries are sorted before they are told, for rows of bits since what is told is
the list of states and neither the bits nor the width.  With it, `Registers.find?_file` says what
a map has after it took a value, for any hasher, one that throws everything into one bucket among
them.
-/

namespace PatternAutomata

variable {S : Type} [StateStore S]

namespace StateStore

/-- The finite set that is held.  Unlike the stored set this is a value that can be compared
between different ways of holding sets. -/
def content (a : S) : Finset Nat :=
  (toList a).toFinset

variable [LawfulStateStore S] {a b : S} {s : Nat}

theorem mem_content : s ∈ content a ↔ contains a s = true := by
  rw [content, List.mem_toFinset, LawfulStateStore.mem_toList]

theorem contains_eq (a : S) (s : Nat) : contains a s = decide (s ∈ content a) := by
  rw [Bool.eq_iff_iff, decide_eq_true_eq, mem_content]

@[simp] theorem content_withCapacity (capacity : Nat) :
    content (withCapacity capacity : S) = ∅ := by
  ext s
  rw [mem_content, LawfulStateStore.contains_withCapacity]
  simp

@[simp] theorem content_insert (a : S) (state : Nat) :
    content (insert a state) = Insert.insert state (content a) := by
  ext s
  rw [mem_content, LawfulStateStore.contains_insert, Finset.mem_insert, mem_content,
    Bool.or_eq_true, decide_eq_true_eq, eq_comm]

@[simp] theorem content_singleton (state capacity : Nat) :
    content (singleton state capacity : S) = {state} := by
  rw [singleton, content_insert, content_withCapacity]
  rfl

@[simp] theorem content_union (a b : S) : content (union a b) = content a ∪ content b := by
  ext s
  rw [mem_content, LawfulStateStore.contains_union, Finset.mem_union, mem_content, mem_content,
    Bool.or_eq_true]

@[simp] theorem content_ofList (states : List Nat) :
    content (ofList states : S) = states.toFinset := by
  ext s
  rw [mem_content, ← mem_elements, elements_ofList, StateSet.mem_ofList, List.mem_toFinset]

theorem isEmpty_eq_content (a : S) : isEmpty a = decide (content a = ∅) := by
  rw [Bool.eq_iff_iff, LawfulStateStore.isEmpty_iff, decide_eq_true_eq,
    Finset.eq_empty_iff_forall_notMem]
  simp only [mem_content, Bool.not_eq_true]

theorem intersects_eq_content (a b : S) :
    intersects a b = decide (content a ∩ content b).Nonempty := by
  rw [Bool.eq_iff_iff, LawfulStateStore.intersects_iff, decide_eq_true_eq]
  simp only [Finset.Nonempty, Finset.mem_inter, mem_content]

theorem same_eq_content (a b : S) : same a b = decide (content a = content b) := by
  rw [Bool.eq_iff_iff, LawfulStateStore.same_iff, decide_eq_true_eq, Finset.ext_iff]
  refine forall_congr' fun s => ?_
  rw [Bool.eq_iff_iff, mem_content, mem_content]

theorem nodup_toList (a : S) : (toList a).Nodup :=
  (LawfulStateStore.sorted_toList a).imp Nat.ne_of_lt

theorem toList_eq_sort (a : S) : toList a = (content a).sort :=
  ((List.toFinset_sort (· ≤ ·) (nodup_toList a)).2
    ((LawfulStateStore.sorted_toList a).imp Nat.le_of_lt)).symm

theorem length_toList (a : S) : (toList a).length = (content a).card :=
  (List.toFinset_card_of_nodup (nodup_toList a)).symm

end StateStore

open StateStore (content)

/-! ### What a set reports -/

/-- The laws of what a set reports and tells a hasher.  They are stated against the answers of the
store, so that together with the laws of the store they determine what is reported by the
content. -/
class LawfulKeyStore (S : Type) [StateStore S] [KeyStore S] : Prop where
  isNew_eq : ∀ (a : S) (state : Nat), KeyStore.isNew a state = !StateStore.contains a state
  count_eq : ∀ a : S, KeyStore.count a = (StateStore.toList a).length
  told_eq : ∀ a b : S, StateStore.toList a = StateStore.toList b →
    KeyStore.told a = KeyStore.told b
  contains_rearranged : ∀ (order : Arrangement) (number : Nat) (a : S) (s : Nat),
    StateStore.contains (KeyStore.rearranged order number a) s = StateStore.contains a s

instance : LawfulKeyStore HashedSet where
  isNew_eq _ _ := rfl
  count_eq := HashedSet.size_eq
  told_eq a b h := by
    show a.toList.length :: a.toList = b.toList.length :: b.toList
    rw [show a.toList = b.toList from h]
  contains_rearranged := HashedSet.contains_rearranged

instance : LawfulKeyStore DenseSet where
  isNew_eq a state := congrArg not (a.contains_eq_testBit state).symm
  count_eq _ := List.countP_eq_length_filter
  told_eq _ _ h := h
  contains_rearranged _ _ _ _ := rfl

instance : LawfulKeyStore StateSet where
  isNew_eq _ _ := rfl
  count_eq a := Std.ExtTreeSet.length_toList.symm
  told_eq a b h := by
    show a.toList.length :: a.toList = b.toList.length :: b.toList
    rw [show a.toList = b.toList from h]
  contains_rearranged _ _ _ _ := rfl

section

variable [LawfulStateStore S] [KeyStore S] [LawfulKeyStore S] {a b : S}

/-- **Equal sets are hashed alike**, whatever their layout.  A map with the set as a key looks in
the right bucket because of this. -/
theorem told_eq_of_content (h : content a = content b) : KeyStore.told a = KeyStore.told b := by
  apply LawfulKeyStore.told_eq
  rw [StateStore.toList_eq_sort, StateStore.toList_eq_sort, h]

@[simp] theorem content_rearranged (order : Arrangement) (number : Nat) (a : S) :
    content (KeyStore.rearranged order number a) = content a := by
  ext s
  rw [StateStore.mem_content, LawfulKeyStore.contains_rearranged, StateStore.mem_content]

end

/-! ### Ledgers -/

/-- Finite sets by register, and the values of the map by finite set.  There is nothing else in
it, so what a ledger answers cannot depend on how sets are held. -/
structure Ledger where
  sets : Nat → Finset Nat
  filed : Finset Nat → Option Nat

namespace Ledger

/-- All sets are empty, and the map has no value. -/
def initial : Ledger := ⟨fun _ => ∅, fun _ => none⟩

/-- A register takes a set. -/
def put (ledger : Ledger) (r : Nat) (set : Finset Nat) : Ledger :=
  { ledger with sets := Function.update ledger.sets r set }

/-- The map takes a value under a set. -/
def file (ledger : Ledger) (set : Finset Nat) (value : Nat) : Ledger :=
  { ledger with filed := Function.update ledger.filed set (some value) }

/-- What one request leaves, and what comes back, said of the sets alone. -/
def perform (ledger : Ledger) : Request → Ledger × Reply
  | .withCapacity r _ => (ledger.put r ∅, .done)
  | .singleton r state _ => (ledger.put r {state}, .done)
  | .ofList r states => (ledger.put r states.toFinset, .done)
  | .insert r state =>
    (ledger.put r (insert state (ledger.sets r)), .flag (state ∉ ledger.sets r))
  | .union r other => (ledger.put r (ledger.sets r ∪ ledger.sets other), .done)
  | .contains r state => (ledger, .flag (state ∈ ledger.sets r))
  | .count r => (ledger, .number (ledger.sets r).card)
  | .isEmpty r => (ledger, .flag (ledger.sets r = ∅))
  | .toList r => (ledger, .states (ledger.sets r).sort)
  | .intersects r other => (ledger, .flag (ledger.sets r ∩ ledger.sets other).Nonempty)
  | .same r other => (ledger, .flag (ledger.sets r = ledger.sets other))
  | .file r value =>
    (ledger.file (ledger.sets r) value, .found (ledger.filed (ledger.sets r)))
  | .find r => (ledger, .found (ledger.filed (ledger.sets r)))

/-- One request after another. -/
def runFrom (ledger : Ledger) : List Request → Ledger × List Reply
  | [] => (ledger, [])
  | request :: rest =>
    let (next, reply) := ledger.perform request
    let (last, replies) := next.runFrom rest
    (last, reply :: replies)

/-- One request after another, with nothing in the ledger. -/
def run (requests : List Request) : Ledger × List Reply :=
  initial.runFrom requests

end Ledger

/-! ### Registers -/

namespace Registers

variable [LawfulStateStore S] [KeyStore S] [LawfulKeyStore S] {digest : List Nat → Nat}
  {regs : Registers S} {ledger : Ledger}

omit [KeyStore S] [LawfulKeyStore S] in
/-- A bucket has what it took, under every set that is the same.  The key may be another stored
set with the same content, which is why this is said up to content. -/
theorem valueIn_valued (entries : List (S × Nat)) (a b : S) (value : Nat) :
    valueIn (valued entries a value) b =
      if content a = content b then some value else valueIn entries b := by
  unfold valued valueIn
  simp only [StateStore.same_eq_content, List.any_eq_true, decide_eq_true_eq]
  split
  case isTrue h =>
    -- the keys stay, so the same entry is found; it may have another value
    have keys : ((fun entry : S × Nat => decide (content b = content entry.1)) ∘ fun entry =>
        if content a = content entry.1 then (entry.1, value) else entry) =
          fun entry => decide (content b = content entry.1) := by
      funext entry
      simp only [Function.comp_apply]
      split <;> rfl
    rw [List.find?_map, keys]
    cases hfind : entries.find? fun entry => decide (content b = content entry.1) with
    | none =>
        have missing : content a ≠ content b := by
          intro hab
          obtain ⟨entry, hentry, hkey⟩ := h
          have := List.find?_eq_none.1 hfind entry hentry
          rw [decide_eq_true_eq, ← hab] at this
          exact this hkey
        rw [if_neg missing]
        rfl
    | some entry =>
        have hkey := List.find?_some hfind
        rw [decide_eq_true_eq] at hkey
        simp only [Option.map_some, hkey]
        split <;> rfl
  case isFalse =>
    rw [List.find?_cons]
    by_cases hab : content a = content b
    · rw [if_pos hab, decide_eq_true hab.symm]
      rfl
    · rw [if_neg hab, decide_eq_false (Ne.symm hab)]

/-- **The map has what it took**, under every set that is the same, and is as before under the
others. -/
theorem find?_file (a b : S) (value : Nat) : (regs.file digest a value).find? digest b =
    if content a = content b then some value else regs.find? digest b := by
  unfold find? bucket file
  by_cases hdigest : digest (KeyStore.told b) = digest (KeyStore.told a)
  · simp only [hdigest, Function.update_self, bucket]
    exact valueIn_valued _ a b value
  · have other : content a ≠ content b := fun h => hdigest (by rw [told_eq_of_content h])
    simp only [Function.update_of_ne hdigest, if_neg other]

/-- Registers hold what a ledger has.  The map is compared by what it finds and not by its
buckets, since these depend on the hasher. -/
structure Represents (digest : List Nat → Nat) (regs : Registers S) (ledger : Ledger) : Prop where
  sets : ∀ r, content (regs.sets r) = ledger.sets r
  filed : ∀ a : S, regs.find? digest a = ledger.filed (content a)

omit [LawfulKeyStore S] in
theorem represents_initial : Represents digest (initial : Registers S) Ledger.initial where
  sets _ := StateStore.content_withCapacity 0
  filed _ := rfl

theorem Represents.put (represents : regs.Represents digest ledger) (order : Arrangement)
    (number r : Nat) {a : S} {set : Finset Nat} (h : content a = set) :
    (regs.put order number r a).Represents digest (ledger.put r set) where
  sets s := by
    by_cases hs : s = r
    · subst hs
      simp [Registers.put, Ledger.put, h]
    · simp [Registers.put, Ledger.put, hs, represents.sets]
  filed := represents.filed

theorem Represents.file (represents : regs.Represents digest ledger) (a : S) (value : Nat) :
    (regs.file digest a value).Represents digest
      (ledger.file (content a) value) where
  sets := represents.sets
  filed b := by
    show _ = Function.update ledger.filed (content a) (some value) (content b)
    rw [find?_file, represents.filed]
    by_cases h : content a = content b
    · rw [if_pos h, h, Function.update_self]
    · rw [if_neg h, Function.update_of_ne (Ne.symm h)]

/-- **What one request leaves and answers** is told by the sets alone: the ledger is in step
again, and the reply is the same. -/
theorem Represents.perform (represents : regs.Represents digest ledger) (order : Arrangement)
    (number : Nat) (request : Request) :
    (regs.perform digest order number request).1.Represents digest (ledger.perform request).1 ∧
      (regs.perform digest order number request).2 = (ledger.perform request).2 := by
  have sets := represents.sets
  -- requests that make a set leave another ledger, and those that ask leave it as it is
  cases request with
  | withCapacity r capacity =>
      exact ⟨represents.put order number r (StateStore.content_withCapacity capacity), rfl⟩
  | singleton r state capacity =>
      exact ⟨represents.put order number r (StateStore.content_singleton state capacity), rfl⟩
  | ofList r states =>
      exact ⟨represents.put order number r (StateStore.content_ofList states), rfl⟩
  | insert r state =>
      refine ⟨represents.put order number r (by rw [StateStore.content_insert, sets]), ?_⟩
      simp only [Registers.perform, Ledger.perform, LawfulKeyStore.isNew_eq,
        StateStore.contains_eq, sets, decide_not]
  | union r other =>
      exact ⟨represents.put order number r (by rw [StateStore.content_union, sets, sets]), rfl⟩
  | contains r state =>
      refine ⟨represents, ?_⟩
      simp only [Registers.perform, Ledger.perform, StateStore.contains_eq, sets]
  | count r =>
      refine ⟨represents, ?_⟩
      simp only [Registers.perform, Ledger.perform, LawfulKeyStore.count_eq,
        StateStore.length_toList, sets]
  | isEmpty r =>
      refine ⟨represents, ?_⟩
      simp only [Registers.perform, Ledger.perform, StateStore.isEmpty_eq_content, sets]
  | toList r =>
      refine ⟨represents, ?_⟩
      simp only [Registers.perform, Ledger.perform, StateStore.toList_eq_sort, sets]
  | intersects r other =>
      refine ⟨represents, ?_⟩
      simp only [Registers.perform, Ledger.perform, StateStore.intersects_eq_content, sets]
  | same r other =>
      refine ⟨represents, ?_⟩
      simp only [Registers.perform, Ledger.perform, StateStore.same_eq_content, sets]
  | file r value =>
      have filed := represents.file (regs.sets r) value
      rw [sets] at filed
      refine ⟨filed, ?_⟩
      simp only [Registers.perform, Ledger.perform, represents.filed, sets]
  | find r =>
      refine ⟨represents, ?_⟩
      simp only [Registers.perform, Ledger.perform, represents.filed, sets]

/-- **What one request after another leaves and answers** is told by the sets alone.  The number
of the first request is arbitrary, since the arrangement may have another order for every number. -/
theorem Represents.runFrom (represents : regs.Represents digest ledger) (order : Arrangement)
    (number : Nat) (requests : List Request) :
    (regs.runFrom digest order number requests).1.Represents digest (ledger.runFrom requests).1 ∧
      (regs.runFrom digest order number requests).2 = (ledger.runFrom requests).2 := by
  induction requests generalizing number regs ledger with
  | nil => exact ⟨represents, rfl⟩
  | cons request rest ih =>
      obtain ⟨next, reply⟩ := represents.perform order number request
      obtain ⟨last, replies⟩ := ih next (number + 1)
      exact ⟨last, by simp only [Registers.runFrom, Ledger.runFrom, reply, replies]⟩

theorem represents_run (digest : List Nat → Nat) (order : Arrangement) (requests : List Request) :
    (run digest order S requests).1.Represents digest (Ledger.run requests).1 ∧
      (run digest order S requests).2 = (Ledger.run requests).2 :=
  represents_initial.runFrom order 0 requests

/-- What registers answer is told by the finite sets in them: whatever the requests were that
filled them, the rooms that were asked for and the layouts.  The last two fields compare registers
of *different* runs, as two sets of one automaton may have come about in quite different ways. -/
structure AnswerByContent (S : Type) [StateStore S] [KeyStore S] : Prop where
  /-- The answers are those of a ledger, which knows of no rooms and no layouts. -/
  replies : ∀ digest order requests, (run digest order S requests).2 = (Ledger.run requests).2
  /-- The sets are those of a ledger. -/
  sets : ∀ digest order requests r,
    content ((run digest order S requests).1.sets r) = (Ledger.run requests).1.sets r
  /-- Sets of any two runs compare as those of the ledgers do. -/
  same : ∀ digest order requests r digest' order' requests' r',
    StateStore.same ((run digest order S requests).1.sets r)
      ((run digest' order' S requests').1.sets r') =
        decide ((Ledger.run requests).1.sets r = (Ledger.run requests').1.sets r')
  /-- If they are the same, hashers are told the same. -/
  told : ∀ digest order requests r digest' order' requests' r',
    StateStore.same ((run digest order S requests).1.sets r)
      ((run digest' order' S requests').1.sets r') = true →
    KeyStore.told ((run digest order S requests).1.sets r) =
      KeyStore.told ((run digest' order' S requests').1.sets r')

/-- **Every lawful way of holding sets answers by the sets alone.**  Nothing is used but the laws,
so another way of holding sets would only have to keep them. -/
theorem answerByContent (S : Type) [StateStore S] [LawfulStateStore S] [KeyStore S]
    [LawfulKeyStore S] : AnswerByContent S where
  replies digest order requests := (represents_run digest order requests).2
  sets digest order requests r := (represents_run digest order requests).1.sets r
  same digest order requests r digest' order' requests' r' := by
    rw [StateStore.same_eq_content, (represents_run digest order requests).1.sets,
      (represents_run digest' order' requests').1.sets]
  told _ _ _ _ _ _ _ _ h := by
    rw [StateStore.same_eq_content, decide_eq_true_eq] at h
    exact told_eq_of_content h

/-- **Hashed and dense sets give the same answers**, for any requests, hashers and layouts, and
all of them are answers about the finite sets that the requests describe.  The two sides of the
equation have hashers and layouts of their own: not even the choice of a hasher can be told from
the replies.  The equation alone would hold of two ways of holding sets that are wrong alike, and
this is why the second half ties each of them to the ledger. -/
theorem hashed_and_dense_alike :
    (∀ requests digest digest' order order',
      (run digest order HashedSet requests).2 = (run digest' order' DenseSet requests).2) ∧
    AnswerByContent HashedSet ∧ AnswerByContent DenseSet ∧ AnswerByContent StateSet := by
  refine ⟨fun requests digest digest' order order' => ?_, answerByContent HashedSet,
    answerByContent DenseSet, answerByContent StateSet⟩
  rw [(answerByContent HashedSet).replies, (answerByContent DenseSet).replies]

end Registers

end PatternAutomata
