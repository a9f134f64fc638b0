/-!
# Tables of characters

A property of characters is given by the ascending list of the ranges of code points that have it,
both ends included. Long tables are written as the lengths of the runs of characters without the property
and with it, in turn.
-/
namespace PhpFlow.Text

abbrev Table := List (Nat × Nat)

/-- The table with the runs of these lengths from a code point on. -/
def Table.ofRuns (start : Nat) : List Nat → Table
  | without :: having :: rest =>
    (start + without, start + without + having - 1) :: ofRuns (start + without + having) rest
  | _ => []

/-- A range that starts above the character ends the search. -/
def Table.holds : Table → Char → Bool
  | [], _ => false
  | (first, last) :: rest, c =>
    if c.toNat < first then false else c.toNat ≤ last || Table.holds rest c

end PhpFlow.Text
