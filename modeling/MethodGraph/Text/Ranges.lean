import MethodGraph.Total
/-!
  Classes of characters, given by ranges of code points.

  A class is a list of closed ranges.  A table that is `ascending` names every member once, so its
  `count` is the number of its members.  Tables are written as lengths of runs (`ofRuns`).
-/

namespace MethodGraph

/-- Closed ranges of code points. -/
abbrev CodeRanges := List (Nat × Nat)

namespace CodeRanges

/-- The ranges from a code point on of which the lengths are given: how many code points are left
    out, how many belong to the class, and so on in turn. -/
def ofRuns (start : Nat) : List Nat → CodeRanges
  | skip :: take :: runs =>
    (start + skip, start + skip + take - 1) :: ofRuns (start + skip + take) runs
  | _ => []

/-- Whether a character is in one of the ranges. -/
def contains (rs : CodeRanges) (c : Char) : Bool :=
  rs.any fun r => r.1 ≤ c.toNat && c.toNat ≤ r.2

/-- Every range has a member and ends before the next one begins, with a gap between them. -/
def ascending : CodeRanges → Bool
  | [] => true
  | [r] => r.1 ≤ r.2
  | r :: s :: rest => r.1 ≤ r.2 && r.2 + 1 < s.1 && ascending (s :: rest)

/-- How many code points the ranges name, each range on its own. -/
def count (rs : CodeRanges) : Nat := total (rs.map fun r => r.2 + 1 - r.1)

end CodeRanges
end MethodGraph
