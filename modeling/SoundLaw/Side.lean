/-!
# Sides

The direction in which a pattern is read. A left context is read outward from the focus, from
right to left.
-/

namespace SoundLaw
set_option autoImplicit false

inductive Side where
  | left
  | right
  deriving DecidableEq, Repr

namespace Side

def opposite : Side → Side
  | left => right
  | right => left

def text : Side → String
  | left => "Left"
  | right => "Right"

/-- A list in the order in which the side reads it. -/
def orient {α : Type} : Side → List α → List α
  | right, xs => xs
  | left, xs => xs.reverse

end Side

end SoundLaw
