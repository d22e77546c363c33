import SoundLaw.Macros

/-!
# Lexemes

Pattern text is broken into brackets, marks, bundles and symbols. Runs of ordinary characters
are cut by the segmenter of the macros, so that the names of macros and symbols of several
characters stay whole. Blanks matter only as separators, so a run of them is one lexeme and the
ends of a text have none.
-/

namespace SoundLaw
set_option autoImplicit false
open Text

inductive Quantifier where
  | one
  | optional
  | star
  | plus
  deriving DecidableEq, Repr

namespace Quantifier

def ofFlags : (optional repeatable : Bool) → Quantifier
  | false, false => one
  | true, false => optional
  | true, true => star
  | false, true => plus

def isOptional : Quantifier → Bool
  | optional | star => true
  | _ => false

def isRepeatable : Quantifier → Bool
  | star | plus => true
  | _ => false

def text : Quantifier → String
  | one => ""
  | optional => "?"
  | star => "*"
  | plus => "+"

end Quantifier

inductive Bracket where
  | round
  | curly
  deriving DecidableEq, Repr

namespace Bracket

def openText : Bracket → String
  | round => "("
  | curly => "\x7b"

def closeText : Bracket → String
  | round => ")"
  | curly => "\x7d"

end Bracket

inductive Atom where
  | boundary
  | wildcard
  | bundle (descriptor : String)
  | name (name : String)
  | symbol (symbol : String)
  deriving DecidableEq, Repr

namespace Atom

def text : Atom → String
  | boundary => Segment.boundarySymbol
  | wildcard => Segment.wildcardSymbol
  | bundle s | name s | symbol s => s

end Atom

inductive Lexeme where
  | opening (bracket : Bracket)
  | closing (bracket : Bracket)
  | quantifier (q : Quantifier)
  | negation
  | space
  | atom (a : Atom)
  deriving DecidableEq, Repr

namespace Lexeme

def text : Lexeme → String
  | opening b => b.openText
  | closing b => b.closeText
  | quantifier q => q.text
  | negation => "!"
  | space => " "
  | atom a => a.text

def render (lexemes : List Lexeme) : String := String.join (lexemes.map text)

def ofChar? : Char → Option Lexeme
  | '(' => some (opening .round)
  | '\x7b' => some (opening .curly)
  | ')' => some (closing .round)
  | '\x7d' => some (closing .curly)
  | '?' => some (quantifier .optional)
  | '*' => some (quantifier .star)
  | '+' => some (quantifier .plus)
  | '!' => some negation
  | '#' => some (atom .boundary)
  | '.' => some (atom .wildcard)
  | c => if isBlank c then some space else none

def isOrdinary (c : Char) : Bool := c != '[' && c != ']' && (ofChar? c).isNone

/-- A symbol cut out of a run of ordinary characters. -/
def ofSymbol (macros : MacroTable) (s : String) : Lexeme :=
  atom (if macros.contains s then .name s else .symbol s)

def scan (macros : MacroTable) (whole : String) : List Char → Except PatternFault (List Lexeme)
  | [] => .ok []
  | c :: cs =>
    let unmatched := PatternFault.unmatchedBracket (String.ofList (trim whole.toList))
    if c = ']' then .error unmatched
    else if c = '[' then
      match h : cut? ']' cs with
      | none => .error unmatched
      | some (inner, rest) =>
        have := length_lt_of_cut? h
        let descriptor := String.ofList (c :: inner ++ [']'])
        return atom (.bundle descriptor) :: (← scan macros whole rest)
    else match ofChar? c with
      | some l => return l :: (← scan macros whole cs)
      | none =>
        have := length_dropWhile_le isOrdinary cs
        let run := macros.segmenter.split (String.ofList (c :: cs.takeWhile isOrdinary))
        return run.map (ofSymbol macros) ++ (← scan macros whole (cs.dropWhile isOrdinary))
termination_by cs => cs.length
decreasing_by all_goals simp only [List.length_cons]; omega

/-- Leaves one lexeme of each run of blanks, and none at the end. -/
def squeeze : List Lexeme → List Lexeme
  | [] => []
  | [space] => []
  | space :: space :: rest => squeeze (space :: rest)
  | l :: rest => l :: squeeze rest

def ofText (macros : MacroTable) (text : String) : Except PatternFault (List Lexeme) := do
  let lexemes ← scan macros text text.toList
  return squeeze (lexemes.dropWhile (· == space))

end Lexeme

end SoundLaw
