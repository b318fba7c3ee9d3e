/-!
# Searching for a boundary

Line tables are sorted, so a look-up in one is a search for the index at which
a property stops holding.  `boundary` finds that index by halving the range.
-/

namespace StackScript

/-- The least index from `low` up to `high` at which `holds` fails, for a
property that never holds again once it has failed; `high` if it never fails. -/
def boundary (holds : Nat → Bool) (low high : Nat) : Nat :=
  if low < high then
    let middle := (low + high) / 2
    if holds middle then boundary holds (middle + 1) high
    else boundary holds low middle
  else low
termination_by high - low

end StackScript
