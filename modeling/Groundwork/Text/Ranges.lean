/-!
# `Text.Ranges` — character classes as tables

A Unicode property is data: a list of closed ranges of code points, ascending and apart. This module
holds the one way such a table is asked.
-/

namespace Groundwork.Text

/-- The number lies in one of the closed ranges. -/
def inRanges (ranges : List (Nat × Nat)) (n : Nat) : Bool :=
  ranges.any fun range => range.1 ≤ n && n ≤ range.2

end Groundwork.Text
