import SoundLaw.Rule.Application

/-!
# Scripts

A script is a text with a macro or a rule on each line. A rule knows the macros defined above
it. The rules are applied to a word in their order, each to the outcome of the one before.
-/

namespace SoundLaw
set_option autoImplicit false
open Text

structure Script where
  rules : List Rule
  /-- The macros as they are behind the last line. -/
  macros : MacroTable

structure ScriptFault where
  line : Nat
  fault : Fault
  deriving DecidableEq, Repr

namespace ScriptFault

def message (e : ScriptFault) : String := s!"line {e.line}: {e.fault.message}"

end ScriptFault

namespace Script

def empty (m : FeatureModel) : Script := ⟨[], .empty m⟩

/-- What a line says, without the comment at its end. -/
def content (line : List Char) : List Char := trim (line.takeWhile (· != '%'))

def isDefinition (content : List Char) : Bool := content.contains '=' && !content.contains '>'

def addLine (s : Script) (line : List Char) : Except Fault Script :=
  let content := content line
  if content.isEmpty then .ok s
  else if isDefinition content then do
    let macros ← (s.macros.add (String.ofList content)).mapError Fault.pattern
    return { s with macros := macros }
  else do
    let r ← Rule.ofText s.macros (String.ofList content)
    return { s with rules := s.rules ++ [r] }

def addLines (s : Script) (number : Nat) : List (List Char) → Except ScriptFault Script
  | [] => .ok s
  | line :: rest =>
    match s.addLine line with
    | .ok s => s.addLines (number + 1) rest
    | .error e => .error ⟨number, e⟩

def ofText (m : FeatureModel) (text : String) : Except ScriptFault Script :=
  (empty m).addLines 1 (lines text.toList)

def segmenter (s : Script) : Segmenter := .ofModel s.macros.model

def apply (s : Script) (w : Word) : Word := s.rules.foldl (fun w r => r.apply w) w

end Script

end SoundLaw
