import SoundLaw.Element

/-!
# Changes

A change replaces what a row of elements reads. Its target is a row of items, which insert
segments, repeat what an element has read, put the counterpart of an alternative in its place, or
write features over what an element has read.
-/

namespace SoundLaw
set_option autoImplicit false

structure Capture where
  first : Nat
  last : Nat
  choice : Option Nat
  deriving DecidableEq, Repr

namespace Capture

def run (c : Capture) (word : List Segment) : List Segment :=
  (word.drop c.first).take (c.last - c.first)

end Capture

/-- Elements of the source are known by their positions in it, from zero on. -/
inductive TargetItem where
  | literal (segment : Segment)
  | repeated (index : Nat)
  /-- The alternative of another macro that stands where the one read stands in its own. -/
  | counterpart (index : Nat) (alternatives : List (List Segment))
  | overwritten (index : Nat) (bundle : Segment)

namespace TargetItem

def render (word : List Segment) (captures : List Capture) : TargetItem → List Segment
  | literal s => [s]
  | repeated index => (captures[index]?.map (·.run word)).getD []
  | counterpart index alternatives =>
    match captures[index]? with
    | none => []
    | some c => ((c.choice.bind (alternatives[·]?))).getD (c.run word)
  | overwritten index bundle =>
    ((captures[index]?.map (·.run word)).getD []).map (·.altered bundle)

end TargetItem

structure Candidate where
  stop : Nat
  captures : List Capture
  deriving DecidableEq, Repr

structure Change where
  source : List Element
  target : List TargetItem
  text : String

namespace Change

def isInsertion (c : Change) : Bool := c.source.isEmpty

def waysToRead (word : List Segment) : List Element → Nat → List Candidate
  | [], pos => [⟨pos, []⟩]
  | e :: es, pos =>
    (e.readings word pos).flatMap fun r =>
      (waysToRead word es r.stop).map fun c =>
        { c with captures := ⟨pos, r.stop, r.choice⟩ :: c.captures }

/-- Every way to read the source at a position, longer ones first. Among equals the order of
the alternatives decides. -/
def candidates (c : Change) (word : List Segment) (pos : Nat) : List Candidate :=
  (waysToRead word c.source pos).mergeSort fun a b => b.stop ≤ a.stop

def render (c : Change) (word : List Segment) (captures : List Capture) : List Segment :=
  c.target.flatMap (·.render word captures)

end Change

end SoundLaw
