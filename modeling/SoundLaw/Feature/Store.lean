import SoundLaw.Call
import SoundLaw.Feature.Model

/-!
# The containers of a draft

While a model is being defined, the slots of its features are kept apart from the list of their
names, and the order of its symbols apart from their vectors. A call changes one container after
the other. A map is a list of what was put into it, the last entry first.
-/

namespace SoundLaw
set_option autoImplicit false
open Text

structure DraftStore where
  features : List String
  slots : List (String × Nat)
  aliases : List (String × List Assignment)
  vectors : List (String × FeatureVector)
  order : List String

namespace DraftStore

def empty : DraftStore := ⟨[], [], [], [], []⟩

def glossary (s : DraftStore) : Glossary := ⟨(s.slots.lookup ·), (s.aliases.lookup ·)⟩

def addFeature (name : String) : Call Fault DraftStore Unit := do
  let name := String.ofList (trim name.toList)
  Call.reading fun s : DraftStore =>
    if (s.slots.lookup name).isSome then .error (.model (.duplicateFeature name)) else .ok ()
  modify fun s => { s with slots := (name, s.features.length) :: s.slots }
  modify fun s => { s with features := s.features ++ [name] }
  modify fun s => { s with vectors := s.vectors.map fun p => (p.1, p.2 ++ [.undefined]) }

def addAlias (name descriptor : String) : Call Fault DraftStore Unit := do
  let assignments ← .reading fun s : DraftStore =>
    (s.glossary.assignments descriptor).mapError .rule
  modify fun s =>
    { s with aliases := (String.ofList (trim name.toList), assignments) :: s.aliases }

def addSymbol (symbol descriptor : String) : Call Fault DraftStore Unit := do
  let v ← .reading fun s : DraftStore =>
    (s.glossary.read s.features.length descriptor .undefined).mapError .rule
  let symbol := String.ofList (trim symbol.toList)
  let known ← modifyGet fun s : DraftStore =>
    ((s.vectors.lookup symbol).isSome, { s with vectors := (symbol, v) :: s.vectors })
  unless known do
    modify fun s => { s with order := s.order ++ [symbol] }

/-- The finished model. Its symbols stand in their order, each with the vector it has by now. -/
def freeze (s : DraftStore) (serial : Nat) : FeatureModel where
  id := .numbered serial
  schema := ⟨s.features, s.aliases⟩
  symbols := s.order.filterMap fun symbol => (s.vectors.lookup symbol).map (symbol, ·)

end DraftStore

end SoundLaw
