import SoundLaw.Feature.Model

/-!
# Segments

A segment is a phonetic symbol with its feature vector, resolved in a model. Two segments match
when their vectors are compatible slot by slot, as long as both have values at all; otherwise
their symbols decide. Matching is not transitive, since a missing value fits any other.
-/

namespace SoundLaw
set_option autoImplicit false
open Text

structure Segment where
  symbol : String
  features : FeatureVector
  model : FeatureModel

namespace Segment

def boundarySymbol : String := "#"

def wildcardSymbol : String := "."

def boundary (m : FeatureModel) : Segment := ⟨boundarySymbol, m.undefined, m⟩

def wildcard (m : FeatureModel) : Segment := ⟨wildcardSymbol, m.undefined, m⟩

def isBoundary (s : Segment) : Bool := s.symbol == boundarySymbol

def isWildcard (s : Segment) : Bool := s.symbol == wildcardSymbol

def isFeatured (s : Segment) : Bool := s.features.isSpecified

def sameModel (s t : Segment) : Bool := s.model.same t.model

def same (s t : Segment) : Bool :=
  s.symbol == t.symbol && s.features.same t.features && s.sameModel t

def fits (s t : Segment) : Bool :=
  s.sameModel t &&
    if s.isFeatured && t.isFeatured then s.features.fits t.features
    else s.symbol == t.symbol

/-- The segment with the features of a bundle written over its own, under the symbol that the
model has for the result. -/
def altered (s bundle : Segment) : Segment :=
  let v := s.features.overwrite bundle.features
  ⟨(s.model.symbolFor? v).getD s.symbol, v, s.model⟩

def alter (s bundle : Segment) : Except ModelFault Segment :=
  if s.sameModel bundle then .ok (s.altered bundle) else .error (.mismatch bundle.symbol)

end Segment

namespace FeatureModel

/-- The segment of a symbol. One that the model does not define matches only itself. -/
def resolve (m : FeatureModel) (symbol : String) : Segment := ⟨symbol, m.vector symbol, m⟩

/-- The segment of a descriptor, which leaves the features that it does not mention open. -/
def resolveBundle (m : FeatureModel) (descriptor : String) : Except Fault Segment :=
  match m.schema.read descriptor .masked with
  | .error e => .error (.rule e)
  | .ok v => .ok ⟨String.ofList (trim descriptor.toList), v, m⟩

end FeatureModel

end SoundLaw
