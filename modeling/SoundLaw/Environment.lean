import SoundLaw.Automaton.Run
import SoundLaw.Text.Nesting

/-!
# Environments

A condition `left_right` looks at both sides of a span: the left pattern has to match the
segments before it, read outward, and the right pattern those behind it, with a boundary at
either end of the word. An environment combines conditions: one of its clauses has to hold, if
there are any, and none of its exclusions may.
-/

namespace SoundLaw
set_option autoImplicit false
open Text

structure Condition where
  /-- The left pattern, which reads from right to left. -/
  before : Automaton
  behind : Automaton
  text : String

namespace Condition

def ofText (macros : MacroTable) (text : String) : Except Fault Condition := do
  let trimmed := trim text.toList
  match splitAt '_' trimmed with
  | [left, right] =>
    return {
      before := ← Automaton.ofText macros .left (String.ofList left)
      behind := ← Automaton.ofText macros .right (String.ofList right)
      text := String.ofList trimmed }
  | _ => throw (.pattern (.separatorCount (String.ofList trimmed)))

/-- What the left pattern reads: the segments before a position, the nearest one first. -/
def outward (w : Word) (first : Nat) : List Segment :=
  (.boundary w.model :: w.segments.take first).reverse

def onward (w : Word) (last : Nat) : List Segment :=
  w.segments.drop last ++ [.boundary w.model]

/-- Whether the condition holds around a span. It never does for what is not a span. -/
def holds (c : Condition) (w : Word) (first last : Nat) : Bool :=
  first ≤ last && last ≤ w.length
    && c.before.isMatch (outward w first) 0 && c.behind.isMatch (onward w last) 0

def isTrivial (c : Condition) : Bool := c.before.isTrivial && c.behind.isTrivial

end Condition

structure Environment where
  clauses : List Condition
  exclusions : List Condition

namespace Environment

/-- The texts of the conditions in a list of words, each with whether it is an exclusion. The
word `or` begins the next condition, and `not` begins an exclusion, as everything behind it is.
At the very beginning `not` begins the first condition, and the end of the text ends the last
one; an empty text has none. -/
def conditionTexts (excluding leading : Bool) (condition : List String) :
    List String → List (Bool × String)
  | [] =>
    if leading && condition.isEmpty then [] else [(excluding, " ".intercalate condition)]
  | word :: words =>
    if word = "or" ∨ word = "not" then
      let rest := conditionTexts (excluding || word == "not") false [] words
      if leading && condition.isEmpty && word == "not" then rest
      else (excluding, " ".intercalate condition) :: rest
    else conditionTexts excluding leading (condition ++ [word]) words

def readAll (macros : MacroTable) : List (Bool × String) → Except Fault Environment
  | [] => .ok ⟨[], []⟩
  | (excluding, text) :: rest => do
    let c ← Condition.ofText macros text
    let e ← readAll macros rest
    return if excluding then { e with exclusions := c :: e.exclusions }
      else { e with clauses := c :: e.clauses }

def ofText (macros : MacroTable) (text : String) : Except Fault Environment :=
  readAll macros (conditionTexts false true [] (outerWords text))

def holds (e : Environment) (w : Word) (first last : Nat) : Bool :=
  (e.clauses.isEmpty || e.clauses.any (·.holds w first last))
    && !e.exclusions.any (·.holds w first last)

def isUnconditional (e : Environment) : Bool := e.clauses.isEmpty && e.exclusions.isEmpty

def text (e : Environment) : String :=
  let clauses := " or ".intercalate (e.clauses.map Condition.text)
  if e.exclusions.isEmpty then clauses
  else
    clauses ++ (if e.clauses.isEmpty then "" else " ") ++ "not "
      ++ " or ".intercalate (e.exclusions.map Condition.text)

end Environment

end SoundLaw
