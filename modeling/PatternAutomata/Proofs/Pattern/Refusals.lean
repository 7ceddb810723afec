import PatternAutomata.Pattern.Assembly
import PatternAutomata.Proofs.Error

/-!
# What a reading is refused for

A pattern is refused because its text is faulty, because the tree stands for more states than
configured, or because dense sets cannot hold as many (`Regex.refused_parse`).  There is no other
way for a reading to go wrong: in particular no rule of an automaton is broken by it.

`Error.RefusedOnly` is about all outcomes of a computation at once, and it has a rule for
everything that computations are put together by.  Every function is one application of these
rules, along its own text, so the proofs here follow the definitions.  The causes are narrower for
parts: a class is refused for its text only (`Bracket.refused_members`), and after the depth was
checked nothing is refused for it again (`Strategy.MayMeet`).
-/

namespace PatternAutomata

open Error (RefusedOnly)
open Regex (Sized)

/-- The causes that lie in the text of a pattern, and that no configuration of the ceilings could
avoid. -/
def Error.IsFault (error : Error) : Prop :=
  ∃ fault offset, error = .malformed fault offset

/-- The causes that a construction with the sets of a strategy may be refused for: a fault of the
text, the configured ceiling, and for dense sets their capacity.  That a rule of an automaton
would be broken is not among them. -/
def Strategy.MayRefuse (strategy : Strategy) : Error → Prop
  | .malformed _ _ => True
  | .stateLimitExceeded _ _ => True
  | .capacityExceeded _ _ => strategy = .bit
  | .breached _ => False

theorem Error.IsFault.mayRefuse {error : Error} (h : error.IsFault) (strategy : Strategy) :
    strategy.MayRefuse error := by
  obtain ⟨fault, offset, rfl⟩ := h
  trivial

/-- The cause that groups are nested too deep. -/
def Error.IsTooDeep : Error → Prop
  | .malformed (.nestedTooDeep _) _ => True
  | _ => False

/-- The causes that a reading may be refused for once the depth of groups has been checked. -/
def Strategy.MayMeet (strategy : Strategy) (error : Error) : Prop :=
  strategy.MayRefuse error ∧ ¬ error.IsTooDeep

/-! ### Ceilings -/

theorem Strategy.refused_check (strategy : Strategy) (requested : Nat) :
    RefusedOnly strategy.MayMeet (strategy.check requested) := by
  cases strategy with
  | hash => exact .ok ()
  | bit => exact .ite (.ok ()) (.error ⟨rfl, id⟩)

theorem Strategy.refused_checkAll (strategy : Strategy) (requests : List Nat) :
    RefusedOnly strategy.MayMeet (strategy.checkAll requests) := by
  induction requests with
  | nil => exact .ok ()
  | cons requested rest ih =>
      rw [checkAll_cons]
      exact (strategy.refused_check requested).bind fun _ _ => ih

namespace Ceiling

variable (ceiling : Ceiling) (l r : Sized)

theorem refused_reserve (states : Nat) :
    RefusedOnly ceiling.strategy.MayMeet (ceiling.reserve states) :=
  .ite (.error ⟨trivial, id⟩) (.ok ())

theorem refused_union : RefusedOnly ceiling.strategy.MayMeet (ceiling.union l r) :=
  (ceiling.refused_reserve _).bind fun _ _ =>
    (ceiling.strategy.refused_checkAll _).bind fun _ _ => .ok _

theorem refused_concat : RefusedOnly ceiling.strategy.MayMeet (ceiling.concat l r) :=
  (ceiling.refused_reserve _).bind fun _ _ =>
    (ceiling.strategy.refused_checkAll _).bind fun _ _ => .ok _

theorem refused_repeated (sign : Quantifier) :
    RefusedOnly ceiling.strategy.MayMeet (ceiling.repeated sign r) := by
  have check := ceiling.strategy.refused_checkAll
  refine (ceiling.refused_reserve _).bind fun _ _ => ?_
  cases sign with
  | star => exact (check _).bind fun _ _ => .ok _
  | plus => exact ((check _).bind fun _ _ => check _).bind fun _ _ => .ok _
  | optional => exact (check _).bind fun _ _ => .ok _

end Ceiling

/-! ### Classes -/

theorem Item.refused_addTo (limit start : Nat) (members : Alphabet) (item : Item) :
    RefusedOnly (fun e => e.IsFault ∧ ¬ e.IsTooDeep) (item.addTo limit start members) := by
  have tooLarge : RefusedOnly (fun e => e.IsFault ∧ ¬ e.IsTooDeep)
      (.error (.malformed (.classTooLarge limit) start) : Except Error Alphabet) :=
    .error ⟨⟨_, _, rfl⟩, id⟩
  cases item with
  | single p => exact .ite tooLarge (.ok _)
  | range first last =>
      exact .ite (.error ⟨⟨_, _, rfl⟩, id⟩) (.ite tooLarge (.ite tooLarge (.ok _)))

/-- **A class is refused for its text only**, and the limit on its size is counted among the
faults of the text. -/
theorem Bracket.refused_members (limit start : Nat) (b : Bracket) :
    RefusedOnly (fun e => e.IsFault ∧ ¬ e.IsTooDeep) (b.members limit start) := by
  have items := RefusedOnly.foldlM (Item.refused_addTo limit start) b.items ∅
  rw [members]
  cases b.pieces
  -- A class that opens with a caret is refused at once; after that both cases read on alike.
  case' cons => refine .ite (.error ⟨⟨_, _, rfl⟩, id⟩) ?_
  all_goals
    refine items.bind fun members _ => ?_
    cases b.ending with
    | dangling offset => exact .error ⟨⟨_, _, rfl⟩, id⟩
    | missing => exact .error ⟨⟨_, _, rfl⟩, id⟩
    | closed => exact .ite (.error ⟨⟨_, _, rfl⟩, id⟩) (.ok _)

/-! ### Patterns -/

theorem Level.refused_join (ceiling : Ceiling) (level : Level) :
    RefusedOnly ceiling.strategy.MayMeet (level.join ceiling) := by
  obtain ⟨alternatives, front, last⟩ := level
  cases last with
  | none => exact .ok _
  | some factor =>
      cases front with
      | none => exact .ok _
      | some front => exact (ceiling.refused_concat _ _).bind fun _ _ => .ok _

theorem Level.refused_close (ceiling : Ceiling) (level : Level) :
    RefusedOnly ceiling.strategy.MayMeet (level.close ceiling) := by
  refine (level.refused_join ceiling).bind fun level _ => ?_
  cases level.alternatives with
  | none => exact .ok _
  | some before => exact ceiling.refused_union _ _

namespace Assembly

variable (config : Config) (ceiling : Ceiling) (a : Assembly)

theorem refused_addChoice {symbols : Except Error Alphabet}
    (hsymbols : RefusedOnly ceiling.strategy.MayMeet symbols) :
    RefusedOnly ceiling.strategy.MayMeet (a.addChoice ceiling symbols) :=
  (a.level.refused_join ceiling).bind fun _ _ => hsymbols.bind fun _ _ => .ok _

/-- **What a token may be refused for**, whatever has been read before it. -/
theorem refused_step (token : Nat × Token) :
    RefusedOnly ceiling.strategy.MayMeet (a.step config ceiling token) := by
  obtain ⟨offset, token⟩ := token
  cases token with
  | symbol c => exact a.refused_addChoice ceiling (.ok _)
  | dot => exact a.refused_addChoice ceiling (.ok _)
  | bracket b =>
      exact a.refused_addChoice ceiling
        ((b.refused_members _ _).weaken fun _ h => ⟨h.1.mayRefuse ceiling.strategy, h.2⟩)
  | dangling => exact a.refused_addChoice ceiling (.error ⟨trivial, id⟩)
  | opening => exact (a.level.refused_join ceiling).bind fun _ _ => .ok _
  | bar => exact (a.level.refused_close ceiling).bind fun _ _ => .ok _
  | closing =>
      refine (a.level.refused_close ceiling).bind fun group _ => ?_
      cases a.outer with
      | nil => exact .error ⟨trivial, id⟩
      | cons first outer => exact .ok _
  | repetition sign =>
      rw [step]
      cases a.level.last with
      | none => exact .error ⟨trivial, id⟩
      | some factor => exact (ceiling.refused_repeated _ sign).bind fun _ _ => .ok _

theorem refused_finish : RefusedOnly ceiling.strategy.MayMeet (a.finish ceiling) := by
  refine (a.level.refused_close ceiling).bind fun whole _ => ?_
  cases a.outer with
  | nil => exact .ok _
  | cons first outer => exact .error ⟨trivial, id⟩

/-- **What a reading may be refused for**, from any place on. -/
theorem refused_run (tokens : List (Nat × Token)) :
    RefusedOnly ceiling.strategy.MayMeet (a.run config ceiling tokens) :=
  (RefusedOnly.foldlM (refused_step config ceiling) tokens a).bind fun final _ =>
    final.refused_finish ceiling

/-- Depth is a matter of the text, though the limit is configured. -/
theorem refused_checkDepth (max depth : Nat) (tokens : List (Nat × Token)) :
    RefusedOnly Error.IsFault (checkDepth max depth tokens) := by
  induction tokens generalizing depth with
  | nil => exact .ok ()
  | cons token tokens ih =>
      obtain ⟨offset, token⟩ := token
      cases token with
      | opening => exact .ite (.error ⟨_, _, rfl⟩) (ih _)
      | _ => exact ih _

end Assembly

/-- **What a pattern may be refused for**: its text, the configured ceiling, and with dense sets
the capacity. -/
theorem Regex.refused_parse (config : Config) (strategy : Strategy) (pattern : List Char) :
    RefusedOnly strategy.MayRefuse (Regex.parse config strategy pattern) := by
  have depth := Assembly.refused_checkDepth config.maxNestingDepth 0
    (Token.scan (Body.ofPattern pattern).offset (Body.ofPattern pattern).text)
  refine (depth.weaken fun _ h => h.mayRefuse strategy).bind fun _ _ => ?_
  have read := Assembly.start.refused_run config ⟨config.maxNfaStates, strategy⟩
    (Token.scan (Body.ofPattern pattern).offset (Body.ofPattern pattern).text)
  exact (read.weaken fun _ h => h.1).bind fun _ _ => .ok _

end PatternAutomata
