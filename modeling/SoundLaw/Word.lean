import SoundLaw.Call
import SoundLaw.Segment

/-!
# Words

A word is a run of segments on one model. The operations that bring in segments from elsewhere
refuse those of another model; the others stay within the word.
-/

namespace SoundLaw
set_option autoImplicit false

def beginsWith : List Segment → List Segment → Bool
  | _, [] => true
  | [], _ :: _ => false
  | s :: ss, t :: ts => s.fits t && beginsWith ss ts

def matchesAt (segments : List Segment) (index : Nat) (run : List Segment) : Bool :=
  index ≤ segments.length && beginsWith (segments.drop index) run

def sameRun : List Segment → List Segment → Bool
  | [], [] => true
  | s :: ss, t :: ts => s.same t && sameRun ss ts
  | _, _ => false

def runText (segments : List Segment) : String := String.join (segments.map Segment.symbol)

/-- Every match of a non-empty run replaced, from left to right and without overlap. -/
def replaceRuns (source target : List Segment) : List Segment → List Segment
  | [] => []
  | s :: ss =>
    if beginsWith (s :: ss) source then
      target ++ replaceRuns source target (ss.drop (source.length - 1))
    else s :: replaceRuns source target ss
termination_by segments => segments.length
decreasing_by all_goals simp only [List.length_cons, List.length_drop]; omega

structure Word where
  model : FeatureModel
  segments : List Segment

namespace Word

def length (w : Word) : Nat := w.segments.length

def isEmpty (w : Word) : Bool := w.segments.isEmpty

def text (w : Word) : String := runText w.segments

def spacedText (w : Word) : String := " ".intercalate (w.segments.map Segment.symbol)

def slice? (w : Word) (first last : Nat) : Option Word :=
  if first ≤ last ∧ last ≤ w.length then
    some { w with segments := (w.segments.drop first).take (last - first) }
  else none

def reversed (w : Word) : Word := { w with segments := w.segments.reverse }

def withBoundary (w : Word) : Word :=
  { w with segments := w.segments ++ [.boundary w.model] }

def matchesAt (w : Word) (index : Nat) (run : List Segment) : Bool :=
  SoundLaw.matchesAt w.segments index run

def indexOf? (w needle : Word) : Option Nat :=
  if needle.length ≤ w.length then
    (List.range (w.length - needle.length + 1)).find? (w.matchesAt · needle.segments)
  else none

def same (w v : Word) : Bool := w.model.same v.model && sameRun w.segments v.segments

/-- Refuses data of another model, which the fault names by its text. -/
def check (w : Word) (m : FeatureModel) (text : String) : Except ModelFault Unit :=
  if w.model.same m then .ok () else .error (.mismatch text)

def checking (m : FeatureModel) (text : String) : Call ModelFault Word Unit :=
  .reading fun w => w.check m text

def pushing (s : Segment) : Call ModelFault Word Unit := do
  checking s.model s.symbol
  modify fun w => { w with segments := w.segments ++ [s] }

def appending (v : Word) : Call ModelFault Word Unit := do
  checking v.model v.text
  modify fun w => { w with segments := w.segments ++ v.segments }

/-- Every match of the source replaced by the target. An empty source matches nowhere. -/
def replacing (source target : Word) : Call ModelFault Word Unit := do
  checking source.model source.text
  checking target.model target.text
  unless source.isEmpty do
    modify fun w =>
      { w with segments := replaceRuns source.segments target.segments w.segments }

def spliceRun (segments : List Segment) (first last : Nat) (run : List Segment) :
    List Segment :=
  segments.take first ++ run ++ segments.drop last

/-- A word put in the place of the segments between two positions, if these lie in the word in this
order. The models are compared first. -/
def splicing (first last : Nat) (v : Word) : Call ModelFault Word Bool := do
  checking v.model v.text
  let w ← get
  if first ≤ last ∧ last ≤ w.length then
    set { w with segments := spliceRun w.segments first last v.segments }
    return true
  else return false

def push (w : Word) (s : Segment) : Except ModelFault Word := (pushing s).outcome w

def append (w v : Word) : Except ModelFault Word := (appending v).outcome w

def replaceAll (w source target : Word) : Except ModelFault Word :=
  (replacing source target).outcome w

def ofSegments (m : FeatureModel) (segments : List Segment) : Except ModelFault Word :=
  segments.foldlM push ⟨m, []⟩

end Word

end SoundLaw
