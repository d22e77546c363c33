/-!
# Ranges of code points

A character property is kept as the list of the inclusive ranges of code points that have it,
in ascending order and without overlap, so that a look-up may stop at the first range beyond
the code point.
-/

namespace SoundLaw.Text
set_option autoImplicit false

abbrev Ranges := List (Nat × Nat)

namespace Ranges

/-- Whether a code point lies in one of the ranges. -/
def covers : Ranges → Nat → Bool
  | [], _ => false
  | (lo, hi) :: rest, n => if n < lo then false else n ≤ hi || covers rest n

end Ranges

end SoundLaw.Text
