import SoundLaw.Text.Quoted

/-!
# Faults

Everything that can be wrong with a piece of input, by cause. Each fault carries the piece of
text that it was raised for, and has one message.
-/

namespace SoundLaw
set_option autoImplicit false
open Text

inductive PatternFault where
  /-- A bracket without its pair, or a pair of different kinds. -/
  | unmatchedBracket (text : String)
  /-- A quantifier or a negation with nothing to apply to. -/
  | danglingMark (text : String)
  | emptyAlternation (text : String)
  | boundaryQuantified (text : String)
  | adjacentBoundaries (text : String)
  | separatorCount (text : String)
  | cyclicMacro (name : String)
  | unknownMacro (name : String)
  /-- A definition that is not a name, an equals sign and alternatives. -/
  | malformedDefinition (text : String)
  deriving DecidableEq, Repr

inductive RuleFault where
  | arrowCount (rule : String)
  | emptySide (rule : String)
  /-- Sources and targets that cannot be paired. -/
  | countMismatch (rule : String) (sources targets : Nat)
  | multipleZeros (rule : String)
  /-- A reference to no element of the source. -/
  | badBackReference (token : String)
  /-- A macro without counterparts for the alternatives of the element referred to. -/
  | classMismatch (token : String)
  | unknownFeature (entry : String)
  /-- A source with more in it than segments, bundles, macros and wildcards. -/
  | illegalSource (token : String)
  deriving DecidableEq, Repr

inductive ModelFault where
  | mismatch (text : String)
  | duplicateFeature (name : String)
  deriving DecidableEq, Repr

inductive Fault where
  | pattern (fault : PatternFault)
  | rule (fault : RuleFault)
  | model (fault : ModelFault)
  deriving DecidableEq, Repr

namespace PatternFault

def text : PatternFault → String
  | unmatchedBracket s | danglingMark s | emptyAlternation s | boundaryQuantified s
  | adjacentBoundaries s | separatorCount s | cyclicMacro s | unknownMacro s
  | malformedDefinition s => s

def message : PatternFault → String
  | unmatchedBracket s => s!"brackets in {quoted s} don't pair up"
  | danglingMark s => s!"metacharacter in {quoted s} has nothing to apply to"
  | emptyAlternation s => s!"{quoted s} offers no alternatives"
  | boundaryQuantified s => s!"word boundary in {quoted s} cannot take a quantifier"
  | adjacentBoundaries s => s!"word boundaries in {quoted s} cannot follow each other"
  | separatorCount s => s!"environment {quoted s} must contain exactly one `_`"
  | cyclicMacro s => s!"macro {quoted s} refers to itself"
  | unknownMacro s => s!"macro {quoted s} is not defined"
  | malformedDefinition s => s!"{quoted s} is not of the form `NAME = alternatives`"

end PatternFault

namespace RuleFault

def text : RuleFault → String
  | arrowCount s | emptySide s | countMismatch s _ _ | multipleZeros s | badBackReference s
  | classMismatch s | unknownFeature s | illegalSource s => s

def message : RuleFault → String
  | arrowCount s => s!"{quoted s} must contain exactly one `>`"
  | emptySide s => s!"{quoted s} has nothing on one side of `>`, use 0 instead"
  | countMismatch s m n => s!"{quoted s} maps {m} source tokens onto {n} target tokens"
  | multipleZeros s => s!"{quoted s} contains more than one 0"
  | badBackReference s => s!"{quoted s} does not refer to a source element"
  | classMismatch s => s!"{quoted s} must translate a macro into a class of the same size"
  | unknownFeature s => s!"{quoted s} is not a feature or alias of the model"
  | illegalSource s => s!"{quoted s} may only contain segments, bundles, macros and `.`"

end RuleFault

namespace ModelFault

def text : ModelFault → String
  | mismatch s | duplicateFeature s => s

def message : ModelFault → String
  | mismatch s => s!"{quoted s} belongs to a different feature model"
  | duplicateFeature s => s!"feature {quoted s} is declared more than once"

end ModelFault

namespace Fault

def text : Fault → String
  | pattern e => e.text
  | rule e => e.text
  | model e => e.text

def reason : Fault → String
  | pattern e => e.message
  | rule e => e.message
  | model e => e.message

def message : Fault → String
  | pattern e => s!"pattern error: {e.message}"
  | rule e => s!"rule error: {e.message}"
  | model e => s!"model error: {e.message}"

end Fault

end SoundLaw
