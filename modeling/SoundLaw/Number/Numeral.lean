import SoundLaw.Number.Binary64

/-!
# Reading numerals

A numeral is an optional sign followed by one of the words `inf`, `infinity` and `nan`, in any
case, or by decimal digits with at most one point among or beside them and an optional decimal
exponent. It stands for the nearest number of the format binary64.
-/

namespace SoundLaw
set_option autoImplicit false

inductive Numeral where
  | number (value : Binary64)
  | notANumber
  | malformed
  deriving DecidableEq

namespace Numeral

def digitValue (c : Char) : Nat := c.toNat - '0'.toNat

def natOfDigits (digits : List Char) : Nat :=
  digits.foldl (fun n c => 10 * n + digitValue c) 0

/-- The place of `coefficient * 10 ^ exponent`. Exponents far beyond those of the format are
settled without computing the power. -/
def scaledPlace (coefficient : Nat) (exponent : Int) : Nat :=
  let size : Int := (Nat.toDigits 10 coefficient).length
  if coefficient = 0 || size + exponent < -400 then 0
  else if 400 < size + exponent then infinityPlace
  else if 0 ≤ exponent then Binary64.nearestPlace (coefficient * tenTo exponent.toNat) 1
  else Binary64.nearestPlace coefficient (tenTo (-exponent).toNat)

/-- A sign and the text behind it; no sign is a plus. -/
def signed : List Char → Bool × List Char
  | '-' :: cs => (true, cs)
  | '+' :: cs => (false, cs)
  | cs => (false, cs)

def exponent? : List Char → Option Int
  | [] => some 0
  | c :: cs =>
    if c = 'e' || c = 'E' then
      let (negative, digits) := signed cs
      if digits.isEmpty || !digits.all Char.isDigit then none
      else if negative then some (-natOfDigits digits) else some (natOfDigits digits)
    else none

def decimal (negative : Bool) (cs : List Char) : Numeral :=
  let whole := cs.takeWhile Char.isDigit
  let (fraction, rest) := match cs.dropWhile Char.isDigit with
    | '.' :: r => (r.takeWhile Char.isDigit, r.dropWhile Char.isDigit)
    | r => ([], r)
  if whole.isEmpty && fraction.isEmpty then malformed
  else match exponent? rest with
    | none => malformed
    | some e =>
      number (.ofPlace negative
        (scaledPlace (natOfDigits (whole ++ fraction)) (e - fraction.length)))

def read (text : List Char) : Numeral :=
  let (negative, cs) := signed text
  let lower := String.ofList (cs.map Char.toLower)
  if lower = "inf" || lower = "infinity" then number (.ofPlace negative infinityPlace)
  else if lower = "nan" then notANumber
  else decimal negative cs

end Numeral

end SoundLaw
