import SoundLaw.Fault
import SoundLaw.Feature.Value
import SoundLaw.Text.Blank

/-!
# Feature schemas and descriptors

A schema holds the names of the features, in the order of the slots of a vector, and aliases
for lists of assignments. A descriptor such as `[+cons,-voice,high=0.5,labial]` is a list of
entries, each of which assigns values to slots; brackets around it may be left out. Where
entries disagree, the last one wins.
-/

namespace SoundLaw
set_option autoImplicit false
open Text

abbrev Assignment := Nat × FeatureValue

structure Schema where
  features : List String
  aliases : List (String × List Assignment)

namespace Schema

def empty : Schema := ⟨[], []⟩

def index? (s : Schema) (name : String) : Option Nat := s.features.idxOf? name

/-- The assignments of an alias; the last definition of a name counts. -/
def alias? (s : Schema) (name : String) : Option (List Assignment) :=
  s.aliases.lookup name

def unknown (entry : List Char) : RuleFault := .unknownFeature (String.ofList entry)

def unbracket (descriptor : List Char) : List Char :=
  let trimmed := trim descriptor
  match trimmed with
  | '[' :: inner => if inner.getLast? = some ']' then inner.dropLast else trimmed
  | _ => trimmed

def entryTexts (descriptor : List Char) : List (List Char) :=
  ((splitAt ',' (unbracket descriptor)).map trim).filter (!·.isEmpty)

def assign (v : FeatureVector) : List Assignment → FeatureVector
  | [] => v
  | (i, x) :: rest => assign (v.set i x) rest

end Schema

/-- What the names in a descriptor stand for. -/
structure Glossary where
  index? : String → Option Nat
  alias? : String → Option (List Assignment)

namespace Glossary

def slot (g : Glossary) (name entry : List Char) : Except RuleFault Nat :=
  match g.index? (String.ofList (trim name)) with
  | some i => .ok i
  | none => .error (Schema.unknown entry)

/-- The assignments of one entry: a value for a feature, a feature with its sign, or an alias. -/
def entry (g : Glossary) (e : List Char) : Except RuleFault (List Assignment) :=
  match cut? '=' e with
  | some (name, value) => do
    let i ← g.slot name e
    match Numeral.read (trim value) with
    | .number x => .ok [(i, .number x)]
    | _ => .error (Schema.unknown e)
  | none =>
    match e with
    | '+' :: name => do return [(← g.slot name e, .plus)]
    | '-' :: name => do return [(← g.slot name e, .minus)]
    | _ =>
      match g.alias? (String.ofList e) with
      | some assignments => .ok assignments
      | none => .error (Schema.unknown e)

def assignmentsOf (g : Glossary) : List (List Char) → Except RuleFault (List Assignment)
  | [] => .ok []
  | e :: es => do
    let first ← g.entry e
    let rest ← g.assignmentsOf es
    return first ++ rest

def assignments (g : Glossary) (descriptor : String) : Except RuleFault (List Assignment) :=
  g.assignmentsOf (Schema.entryTexts descriptor.toList)

/-- The vector of a descriptor, with a given value in the slots that it does not mention. -/
def read (g : Glossary) (size : Nat) (descriptor : String) (fill : FeatureValue) :
    Except RuleFault FeatureVector := do
  let assignments ← g.assignments descriptor
  return Schema.assign (List.replicate size fill) assignments

end Glossary

namespace Schema

def glossary (s : Schema) : Glossary := ⟨s.index?, s.alias?⟩

def slot (s : Schema) (name entry : List Char) : Except RuleFault Nat :=
  s.glossary.slot name entry

def entry (s : Schema) (e : List Char) : Except RuleFault (List Assignment) :=
  s.glossary.entry e

def assignmentsOf (s : Schema) (es : List (List Char)) : Except RuleFault (List Assignment) :=
  s.glossary.assignmentsOf es

def assignments (s : Schema) (descriptor : String) : Except RuleFault (List Assignment) :=
  s.assignmentsOf (entryTexts descriptor.toList)

def read (s : Schema) (descriptor : String) (fill : FeatureValue) :
    Except RuleFault FeatureVector := do
  let assignments ← s.assignments descriptor
  return assign (List.replicate s.features.length fill) assignments

section Reading
variable (s : Schema) (name e : List Char) (es : List (List Char))

theorem slot_eq : s.slot name e = match s.index? (String.ofList (trim name)) with
    | some i => .ok i
    | none => .error (unknown e) := rfl

theorem entry_eq : s.entry e = match cut? '=' e with
    | some (name, value) => do
      let i ← s.slot name e
      match Numeral.read (trim value) with
      | .number x => .ok [(i, .number x)]
      | _ => .error (unknown e)
    | none =>
      match e with
      | '+' :: name => do return [(← s.slot name e, .plus)]
      | '-' :: name => do return [(← s.slot name e, .minus)]
      | _ =>
        match s.alias? (String.ofList e) with
        | some assignments => .ok assignments
        | none => .error (unknown e) := rfl

theorem assignmentsOf_nil : s.assignmentsOf [] = .ok [] := rfl

theorem assignmentsOf_cons : s.assignmentsOf (e :: es) = do
    let first ← s.entry e
    let rest ← s.assignmentsOf es
    return first ++ rest := rfl

end Reading

def addFeature (s : Schema) (name : String) : Schema :=
  { s with features := s.features ++ [name] }

def addAlias (s : Schema) (name : String) (assignments : List Assignment) : Schema :=
  { s with aliases := (name, assignments) :: s.aliases }

end Schema

end SoundLaw
