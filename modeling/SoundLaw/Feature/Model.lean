import SoundLaw.Feature.Schema

/-!
# Feature models

A feature model maps symbols to feature vectors and back. Models are told apart by identity and
not by content: whoever freezes a draft gives the model its identity, and the model without
features and symbols has one of its own.
-/

namespace SoundLaw
set_option autoImplicit false
open Text

inductive ModelId where
  | empty
  | numbered (serial : Nat)
  deriving DecidableEq, Repr

structure FeatureModel where
  id : ModelId
  schema : Schema
  /-- The symbols with their vectors, in the order of their first definitions. -/
  symbols : List (String × FeatureVector)

namespace FeatureModel

def empty : FeatureModel := ⟨.empty, .empty, []⟩

def features (m : FeatureModel) : List String := m.schema.features

def size (m : FeatureModel) : Nat := m.features.length

def featureIndex? (m : FeatureModel) (name : String) : Option Nat := m.schema.index? name

def undefined (m : FeatureModel) : FeatureVector := List.replicate m.size .undefined

/-- The vector of a symbol; unknown symbols have no values. -/
def vector (m : FeatureModel) (symbol : String) : FeatureVector :=
  (m.symbols.lookup symbol).getD m.undefined

def symbolFor? (m : FeatureModel) (v : FeatureVector) : Option String :=
  (m.symbols.find? fun p => FeatureVector.same p.2 v).map Prod.fst

def same (m n : FeatureModel) : Bool := m.id == n.id

end FeatureModel

structure ModelDraft where
  schema : Schema
  symbols : List (String × FeatureVector)

namespace ModelDraft

def empty : ModelDraft := ⟨.empty, []⟩

/-- Appends a feature, undefined in the symbols defined so far. -/
def addFeature (d : ModelDraft) (name : String) : Except Fault ModelDraft :=
  let name := String.ofList (trim name.toList)
  if d.schema.features.contains name then .error (.model (.duplicateFeature name))
  else .ok
    { schema := d.schema.addFeature name
      symbols := d.symbols.map fun p => (p.1, p.2 ++ [.undefined]) }

def addAlias (d : ModelDraft) (name descriptor : String) : Except Fault ModelDraft :=
  match d.schema.assignments descriptor with
  | .error e => .error (.rule e)
  | .ok assignments =>
    .ok { d with schema := d.schema.addAlias (String.ofList (trim name.toList)) assignments }

def define (symbol : String) (v : FeatureVector) :
    List (String × FeatureVector) → List (String × FeatureVector)
  | [] => [(symbol, v)]
  | p :: ps => if p.1 = symbol then (symbol, v) :: ps else p :: define symbol v ps

/-- Defines or redefines a symbol, undefined in the features that the descriptor leaves out. -/
def addSymbol (d : ModelDraft) (symbol descriptor : String) : Except Fault ModelDraft :=
  match d.schema.read descriptor .undefined with
  | .error e => .error (.rule e)
  | .ok v => .ok { d with symbols := define (String.ofList (trim symbol.toList)) v d.symbols }

def freeze (d : ModelDraft) (serial : Nat) : FeatureModel :=
  ⟨.numbered serial, d.schema, d.symbols⟩

end ModelDraft

end SoundLaw
