/-!
# Binary floating point numbers

The numbers of the format binary64 other than NaN. The magnitudes of the format are numbered
from zero upward in their order: the number of a magnitude is `2 ^ 52` times its exponent above
the least one plus its significand, and infinity comes last. Each number is thus a sign and
the place of its magnitude, and only the two zeros denote the same value twice.
-/

namespace SoundLaw
set_option autoImplicit false

def twoTo (n : Nat) : Nat := Nat.pow 2 n

def tenTo (n : Nat) : Nat := Nat.pow 10 n

def infinityPlace : Nat := 2047 * twoTo 52

structure Binary64 where
  negative : Bool
  magnitude : Nat
  le_infinity : magnitude ≤ infinityPlace
  deriving DecidableEq

namespace Binary64

def ofPlace (negative : Bool) (place : Nat) : Binary64 :=
  ⟨negative, min place infinityPlace, Nat.min_le_right _ _⟩

def isZero (x : Binary64) : Bool := x.magnitude == 0

def isInfinite (x : Binary64) : Bool := x.magnitude == infinityPlace

def same (x y : Binary64) : Bool := x == y || x.isZero && y.isZero

/-- A magnitude as `significand * 2 ^ (binade - 1074)`. -/
def significand (x : Binary64) : Nat :=
  if x.magnitude < twoTo 52 then x.magnitude else twoTo 52 + x.magnitude % twoTo 52

def binade (x : Binary64) : Nat := x.magnitude / twoTo 52 - 1

def one : Binary64 := ofPlace false (1023 * twoTo 52)

def minusOne : Binary64 := ofPlace true (1023 * twoTo 52)

theorem same_refl (x : Binary64) : x.same x = true := by simp [same]

def roundEven (num den : Nat) : Nat :=
  let q := num / den
  let twice := 2 * (num % den)
  if twice < den then q
  else if den < twice then q + 1
  else q + q % 2

/-- The binary logarithm of a positive fraction, rounded down and raised by 1074; fractions
below `2 ^ (-1074)` give zero. -/
def raisedLog (num den : Nat) : Nat :=
  let guess := num.log2 + 1074 - den.log2
  if num * twoTo 1074 < den * twoTo guess then guess - 1 else guess

/-- The place of the magnitude nearest to a fraction, ties to the even place. Every magnitude
of the binade of the fraction is a multiple of one power of two; rounding up to the next
binade gives the place of its first magnitude. -/
def nearestPlace (num den : Nat) : Nat :=
  if num = 0 then 0
  else
    let binade := raisedLog num den - 52
    binade * twoTo 52 + roundEven (num * twoTo 1074) (den * twoTo binade)

end Binary64

end SoundLaw
