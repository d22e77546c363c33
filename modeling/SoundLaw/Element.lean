import SoundLaw.Macros

/-!
# Elements

An element reads a run of segments at a position: a segment that the literal fits, any segment
but the boundary, or one of the alternatives of a macro. Automata read elements along their
transitions, and the source of a rule is a list of them.
-/

namespace SoundLaw
set_option autoImplicit false

inductive Element where
  | literal (segment : Segment)
  /-- One of the alternatives that a macro had when its name was read. -/
  | named (name : String) (alternatives : List (List Segment))
  /-- Any segment but the boundary. -/
  | wildcard

/-- One way to read an element: the position behind it, and the index of the alternative that
was taken where the element is a macro. -/
structure Reading where
  stop : Nat
  choice : Option Nat
  deriving DecidableEq, Repr

namespace Element

def readingsOf (target : List Segment) (pos : Nat) : Nat → List (List Segment) → List Reading
  | _, [] => []
  | index, run :: runs =>
    if matchesAt target pos run then
      ⟨pos + run.length, some index⟩ :: readingsOf target pos (index + 1) runs
    else readingsOf target pos (index + 1) runs

def readings (target : List Segment) (pos : Nat) : Element → List Reading
  | literal s => if matchesAt target pos [s] then [⟨pos + 1, none⟩] else []
  | named _ alternatives => readingsOf target pos 0 alternatives
  | wildcard =>
    match target[pos]? with
    | some s => if s.isBoundary then [] else [⟨pos + 1, none⟩]
    | none => []

def text : Element → String
  | literal s => s.symbol
  | named name _ => name
  | wildcard => Segment.wildcardSymbol

end Element

end SoundLaw
