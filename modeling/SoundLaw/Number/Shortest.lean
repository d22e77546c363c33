import SoundLaw.Number.Binary64

/-!
# Shortest decimals

A number is written with the fewest decimal digits that still read back as it, and of several
such decimals with the one nearest to it. The notation is positional whatever the exponent.

A finite magnitude is `significand * 2 ^ (binade - 1074)`, and the reals that round to it lie
between the midpoints to its neighbours, the midpoints included when the significand is even.
All of this is computed in whole multiples of a unit that divides the midpoints.
-/

namespace SoundLaw.Binary64
set_option autoImplicit false

structure Interval where
  low : Nat
  value : Nat
  high : Nat
  denominator : Nat
  closed : Bool

/-- The rounding interval, in quarters of a unit of the last place. The gap below the first
magnitude of a binade is half as wide. -/
def interval (x : Binary64) : Interval :=
  let m := x.significand
  let scale := twoTo x.binade
  let below := if m = twoTo 52 && 0 < x.binade then 1 else 2
  { low := (4 * m - below) * scale
    value := 4 * m * scale
    high := (4 * m + 2) * scale
    denominator := twoTo 1076
    closed := m % 2 == 0 }

/-- A coefficient times a power of ten; `places` counts the digits behind the point, or, when
negative, the zeros that follow the coefficient. -/
structure Decimal where
  coefficient : Nat
  places : Int

def gridFactors (places : Int) : Nat × Nat :=
  if 0 ≤ places then (1, tenTo places.toNat) else (tenTo (-places).toNat, 1)

/-- The decimal with the given number of places that is in the interval and nearest to its
value; the greater one at equal distance. -/
def Interval.onGrid? (i : Interval) (places : Int) : Option Nat :=
  let (up, down) := gridFactors places
  let unit := i.denominator * up
  let inside (n : Nat) : Bool :=
    let p := n * unit
    if i.closed then i.low * down ≤ p && p ≤ i.high * down
    else i.low * down < p && p < i.high * down
  let floor := i.value * down / unit
  let rest := i.value * down - floor * unit
  match inside floor, inside (floor + 1) with
  | true, true => some (if 2 * rest < unit then floor else floor + 1)
  | true, false => some floor
  | false, true => some (floor + 1)
  | false, false => none

def Interval.search (i : Interval) : (steps : Nat) → (places : Int) → Decimal
  | 0, places => ⟨(i.onGrid? places).getD 0, places⟩
  | steps + 1, places =>
    match i.onGrid? places with
    | some n => ⟨n, places⟩
    | none => i.search steps (places + 1)

/-- No decimal with more than 309 digits before the point is finite, and one with 1080 places
behind it is in every interval. -/
def shortest (x : Binary64) : Decimal := x.interval.search 1400 (-309)

def Decimal.digits (d : Decimal) : List Char :=
  let ds := Nat.toDigits 10 d.coefficient
  if d.coefficient = 0 then ['0']
  else if d.places ≤ 0 then ds ++ List.replicate (-d.places).toNat '0'
  else
    let places := d.places.toNat
    let padded := List.replicate (places + 1 - ds.length) '0' ++ ds
    padded.take (padded.length - places) ++ '.' :: padded.drop (padded.length - places)

def text (x : Binary64) : String :=
  let sign := if x.negative then ['-'] else []
  if x.isInfinite then String.ofList (sign ++ ['i', 'n', 'f'])
  else if x.isZero then String.ofList (sign ++ ['0'])
  else String.ofList (sign ++ x.shortest.digits)

end SoundLaw.Binary64
