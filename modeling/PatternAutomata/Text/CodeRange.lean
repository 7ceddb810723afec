/-!
# Tables of code point ranges

Two properties of characters decide how a symbol is written: whether it extends the character
before it, and whether it has a visible form at all.  Both hold of long runs of neighbouring code
points, so a table of closed ranges, ascending and without two that touch, says all there is to
say.  This module has the lookup, `CodeRange.covers`; the tables are modules of their own, named
for the property they hold.

## Why the lookup is a plain scan

Because the ranges ascend, a scan may stop at the first range that starts beyond the code point.
ASCII, which is nearly all of what is looked up, is decided by the first two or three entries, so
nothing would be gained by searching from the middle, and the scan has the table's own recursion.
Nothing in the project depends on what the tables hold: all that is proved of written forms is
proved for any answer of the lookup.
-/

namespace PatternAutomata.Text

/-- A closed range of code points, given by its ends. -/
abbrev CodeRange := Nat × Nat

namespace CodeRange

/-- Whether `code` lies in one of the ranges of an ascending table.  A range that starts beyond
`code` ends the scan, and this is where the order of the table is relied on. -/
def covers : List CodeRange → Nat → Bool
  | [], _ => false
  | (first, last) :: rest, code =>
    if code < first then false
    else if code ≤ last then true
    else covers rest code

end CodeRange

end PatternAutomata.Text
