/-!
# Membership in tables of ranges

The character classes are given as tables of inclusive ranges in ascending order.  A look-up walks
the table and stops at the first range that begins above the code point, so a table is searched in
order and a miss costs no more than a hit.

A long table is spelled by the lengths of its runs: how many code points in turn are left out and
belong to the class.
-/

namespace DeclBridge.Text

/-- The inclusive ranges of a class, from the lengths of its runs from `start` on. -/
def rangesFrom (start : Nat) : List Nat → List (Nat × Nat)
  | gap :: length :: rest =>
    (start + gap, start + gap + length - 1) :: rangesFrom (start + gap + length) rest
  | _ => []

/-- Whether `n` lies in one of the inclusive ranges of an ascending table. -/
def inRanges : List (Nat × Nat) → Nat → Bool
  | [], _ => false
  | (lo, hi) :: rest, n => if n < lo then false else if n ≤ hi then true else inRanges rest n

def inSteppedRanges : List (Nat × Nat × Nat) → Nat → Bool
  | [], _ => false
  | (lo, hi, step) :: rest, n =>
    if n < lo then false
    else if n ≤ hi then (n - lo) % step == 0
    else inSteppedRanges rest n

end DeclBridge.Text
