import SoundLaw.Number.Numeral
import SoundLaw.Number.Shortest

/-!
# Feature values

One slot of a feature vector holds a number, or nothing for one of two reasons: no value was
ever assigned, or the value was left open on purpose.
-/

namespace SoundLaw
set_option autoImplicit false

inductive FeatureValue where
  | undefined
  | masked
  | number (value : Binary64)
  deriving DecidableEq

namespace FeatureValue

def plus : FeatureValue := number .one

def minus : FeatureValue := number .minusOne

/-- The value a numeral stands for. What is not a number cannot be ordered, so it is undefined. -/
def ofNumeral : Numeral → Option FeatureValue
  | .number x => some (number x)
  | .notANumber => some undefined
  | .malformed => none

def isSpecified : FeatureValue → Bool
  | number _ => true
  | _ => false

/-- Compatibility: anything fits a missing value. -/
def fits : FeatureValue → FeatureValue → Bool
  | number x, number y => x.same y
  | _, _ => true

def same : FeatureValue → FeatureValue → Bool
  | undefined, undefined | masked, masked => true
  | number x, number y => x.same y
  | _, _ => false

def text : FeatureValue → String
  | undefined => "?"
  | masked => "*"
  | number x => if x = .one then "+" else if x = .minusOne then "-" else x.text

end FeatureValue

abbrev FeatureVector := List FeatureValue

namespace FeatureVector

def same : FeatureVector → FeatureVector → Bool
  | [], [] => true
  | x :: xs, y :: ys => x.same y && same xs ys
  | _, _ => false

def fits (v w : FeatureVector) : Bool := (v.zip w).all fun p => p.1.fits p.2

/-- The slots of the second vector where it specifies one, of the first elsewhere. -/
def overwrite (v w : FeatureVector) : FeatureVector :=
  (v.zip w).map fun p => if p.2.isSpecified then p.2 else p.1

def isSpecified (v : FeatureVector) : Bool := v.any FeatureValue.isSpecified

end FeatureVector

end SoundLaw
