import SoundLaw.Fault
import SoundLaw.Segmenter

/-!
# Macros

A macro is a name for a list of alternatives, each a run of segments. A definition may mention
macros defined before it; they are expanded when it is stored, so that later changes of theirs
do not reach it. A token that mentions several stands for every combination of their
alternatives.
-/

namespace SoundLaw
set_option autoImplicit false
open Text

structure MacroTable where
  model : FeatureModel
  /-- The alternatives of each macro, in the order in which the names were first defined. -/
  entries : List (String × List (List Segment))

/-- Every way to choose one run from each list, joined, the leftmost choice varying slowest. -/
def combinations : List (List (List Segment)) → List (List Segment)
  | [] => [[]]
  | options :: rest =>
    options.flatMap fun run => (combinations rest).map fun tail => run ++ tail

/-- Every way to choose one run from each list. Of no lists there is no way at all, where the
combinations would still have the empty run. -/
def cartesianProduct : List (List (List Segment)) → List (List Segment)
  | [] => []
  | options :: rest => combinations (options :: rest)

def readDefinition (definition : String) : Except PatternFault (String × List String) :=
  let malformed := PatternFault.malformedDefinition (String.ofList (trim definition.toList))
  match cut? '=' definition.toList with
  | none => .error malformed
  | some (left, body) =>
    let name := trim left
    if name.isEmpty || name.any isBlank || (trim body).isEmpty then .error malformed
    else .ok (String.ofList name, (words body).map String.ofList)

namespace MacroTable

def empty (m : FeatureModel) : MacroTable := ⟨m, []⟩

def names (t : MacroTable) : List String := t.entries.map Prod.fst

def find? (t : MacroTable) (name : String) : Option (List (List Segment)) :=
  t.entries.lookup name

def contains (t : MacroTable) (name : String) : Bool := (t.find? name).isSome

def alternatives (t : MacroTable) (name : String) :
    Except PatternFault (List (List Segment)) :=
  match t.find? name with
  | some alternatives => .ok alternatives
  | none => .error (.unknownMacro name)

def segmenter (t : MacroTable) : Segmenter := .withSymbols t.model t.names

def options (t : MacroTable) (name symbol : String) : Except PatternFault (List (List Segment)) :=
  if symbol = name then .error (.cyclicMacro name)
  else match t.find? symbol with
    | some alternatives => .ok alternatives
    | none => .ok [[t.model.resolve symbol]]

def expand (t : MacroTable) (name : String) (symbols : List String) :
    Except PatternFault (List (List Segment)) := do
  let options ← symbols.mapM (t.options name)
  return cartesianProduct options

/-- The entries with new alternatives for a name, which keeps its place if it has one. -/
def put (name : String) (alternatives : List (List Segment)) :
    List (String × List (List Segment)) → List (String × List (List Segment))
  | [] => [(name, alternatives)]
  | e :: es => if e.1 = name then (name, alternatives) :: es else e :: put name alternatives es

def define (t : MacroTable) (name : String) (tokens : List String) :
    Except PatternFault MacroTable := do
  let segmenter := Segmenter.withSymbols t.model (t.names ++ [name])
  let alternatives ← tokens.mapM fun token => t.expand name (segmenter.split token)
  return { t with entries := put name alternatives.flatten t.entries }

def add (t : MacroTable) (definition : String) : Except PatternFault MacroTable := do
  let (name, tokens) ← readDefinition definition
  t.define name tokens

end MacroTable

end SoundLaw
