import SoundLaw.Call
import SoundLaw.Macros

/-!
# The containers of a table of macros

The alternatives of the macros are kept in a map, apart from the list of the names, which has the
order of the definitions. A name goes into the list only if it was not in the map before.
-/

namespace SoundLaw
set_option autoImplicit false

structure MacroStore where
  model : FeatureModel
  /-- What was put into the map, the last definition first. -/
  alternatives : List (String × List (List Segment))
  names : List String

namespace MacroStore

def empty (m : FeatureModel) : MacroStore := ⟨m, [], []⟩

def find? (s : MacroStore) (name : String) : Option (List (List Segment)) :=
  s.alternatives.lookup name

def expand (s : MacroStore) (name : String) (tokens : List String) :
    Except PatternFault (List (List Segment)) := do
  let segmenter := Segmenter.withSymbols s.model (s.names ++ [name])
  let table : MacroTable := ⟨s.model, s.alternatives⟩
  let runs ← tokens.mapM fun token => table.expand name (segmenter.split token)
  return runs.flatten

def define (name : String) (tokens : List String) : Call PatternFault MacroStore Unit := do
  let runs ← .reading fun s : MacroStore => s.expand name tokens
  let known ← modifyGet fun s : MacroStore =>
    ((s.find? name).isSome, { s with alternatives := (name, runs) :: s.alternatives })
  unless known do
    modify fun s => { s with names := s.names ++ [name] }

def add (definition : String) : Call PatternFault MacroStore Unit := do
  let (name, tokens) ← .reading fun _ : MacroStore => readDefinition definition
  define name tokens

end MacroStore

end SoundLaw
