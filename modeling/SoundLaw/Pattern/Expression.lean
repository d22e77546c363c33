import SoundLaw.Pattern.Lexeme
import SoundLaw.Side

/-!
# Expressions

The syntax tree of a pattern: leaves, groups and alternations, each with a quantifier and a
sign. A whole pattern is a list of expressions that follow one another. Functions on the tree
come in pairs, one for an expression and one for a list of them.
-/

namespace SoundLaw
set_option autoImplicit false

inductive Terminal where
  | literal (segment : Segment)
  | boundary
  | wildcard
  | reference (name : String)

namespace Terminal

def isBoundary : Terminal → Bool
  | boundary => true
  | _ => false

def text : Terminal → String
  | literal s => s.symbol
  | boundary => Segment.boundarySymbol
  | wildcard => Segment.wildcardSymbol
  | reference name => name

end Terminal

structure Marks where
  quantifier : Quantifier := .one
  negative : Bool := false
  deriving DecidableEq, Repr

inductive Expression where
  | terminal (t : Terminal) (marks : Marks)
  | group (children : List Expression) (marks : Marks)
  | alternation (alternatives : List Expression) (marks : Marks)

namespace Expression

def marks : Expression → Marks
  | terminal _ m | group _ m | alternation _ m => m

def quantifier (e : Expression) : Quantifier := e.marks.quantifier

def isNegative (e : Expression) : Bool := e.marks.negative

def withMarks : Expression → Marks → Expression
  | terminal t _, m => terminal t m
  | group children _, m => group children m
  | alternation alternatives _, m => alternation alternatives m

def bare (e : Expression) : Expression := e.withMarks {}

def quantified (e : Expression) (q : Quantifier) : Expression :=
  e.withMarks { e.marks with quantifier := q }

def negated (e : Expression) : Expression := e.withMarks { e.marks with negative := true }

def isGroup : Expression → Bool
  | group _ _ => true
  | _ => false

/-- A group without marks, which only holds a sequence together. -/
def isBareGroup (e : Expression) : Bool :=
  e.isGroup && e.quantifier == .one && !e.isNegative

mutual

/-- Whether a word boundary is all that an expression can match, marks aside. -/
def isOnlyBoundary : Expression → Bool
  | terminal t _ => t.isBoundary
  | group children _ => isSoleBoundary children
  | alternation alternatives _ => !alternatives.isEmpty && areOnlyBoundaries alternatives

def isSoleBoundary : List Expression → Bool
  | [e] => isOnlyBoundary e
  | _ => false

def areOnlyBoundaries : List Expression → Bool
  | [] => true
  | e :: es => isOnlyBoundary e && areOnlyBoundaries es

end

mutual

/-- Whether the first unit that a side reads can be a word boundary, marks aside. -/
def edgeIsBoundary (side : Side) : Expression → Bool
  | terminal t _ => t.isBoundary
  | group children _ =>
    match side with
    | .right => ((edgesAreBoundaries side children).head?).getD false
    | .left => ((edgesAreBoundaries side children).getLast?).getD false
  | alternation alternatives _ => (edgesAreBoundaries side alternatives).any id

def edgesAreBoundaries (side : Side) : List Expression → List Bool
  | [] => []
  | e :: es => edgeIsBoundary side e :: edgesAreBoundaries side es

end

def dress (e : Expression) (text : String) : String :=
  (if e.isNegative then "!" else "")
    ++ (if e.isGroup then "(" ++ text ++ ")" else text)
    ++ e.quantifier.text

/-- An alternative as written between braces, where a group needs no parentheses. -/
def dressAlternative (e : Expression) (text : String) : String :=
  if e.isBareGroup then text else e.dress text

mutual

/-- The text of an expression without its marks and, for a group, without its parentheses. -/
def innerText : Expression → String
  | terminal t _ => t.text
  | group children _ => sequenceText children
  | alternation alternatives _ =>
    "\x7b" ++ " ".intercalate (alternativeTexts alternatives) ++ "\x7d"

def sequenceText : List Expression → String
  | [] => ""
  | e :: es => dress e (innerText e) ++ sequenceText es

def alternativeTexts : List Expression → List String
  | [] => []
  | e :: es => dressAlternative e (innerText e) :: alternativeTexts es

end

def text (e : Expression) : String := e.dress e.innerText

end Expression

end SoundLaw
