import SoundLaw.Text.ClusterBreak

/-!
# Grapheme clusters

A text is cut into extended grapheme clusters by the rules of UAX #29. Whether the next
character joins the current cluster depends on that cluster alone, so a small state that starts
anew with each cluster decides it, and the clusters of a text that starts at a boundary are the
clusters of the whole from there on.
-/

namespace SoundLaw.Text
set_option autoImplicit false

inductive Conjunct where
  | none
  | consonant
  | linked
  deriving DecidableEq, Repr

structure ClusterState where
  last : ClusterClass
  /-- The cluster ends in a pictograph and extending characters. -/
  pictograph : Bool
  /-- The same, with a joiner behind it. -/
  joinedPictograph : Bool
  conjunct : Conjunct
  /-- The cluster ends in a regional indicator that has no partner yet. -/
  lonelyRegional : Bool
  deriving DecidableEq, Repr

namespace ClusterClass

def isControl : ClusterClass → Bool
  | carriageReturn | lineFeed | control => true
  | _ => false

def isExtending : ClusterClass → Bool
  | extend | nonJoiner | linker => true
  | _ => false

end ClusterClass

namespace Conjunct

def next : Conjunct → ClusterClass → Conjunct
  | _, .consonant => consonant
  | none, _ => none
  | _, .linker => linked
  | c, .extend | c, .joiner => c
  | _, _ => none

end Conjunct

namespace ClusterState

def start (k : ClusterClass) : ClusterState where
  last := k
  pictograph := k == .pictographic
  joinedPictograph := false
  conjunct := Conjunct.none.next k
  lonelyRegional := k == .regional

def next (s : ClusterState) (k : ClusterClass) : ClusterState where
  last := k
  pictograph := k == .pictographic || s.pictograph && k.isExtending
  joinedPictograph := s.pictograph && k == .joiner
  conjunct := s.conjunct.next k
  lonelyRegional := k == .regional && !s.lonelyRegional

def syllable : ClusterClass → ClusterClass → Bool
  | .leading, .leading | .leading, .vowel | .leading, .syllableOpen
  | .leading, .syllableClosed => true
  | .syllableOpen, .vowel | .syllableOpen, .trailing | .vowel, .vowel | .vowel, .trailing => true
  | .syllableClosed, .trailing | .trailing, .trailing => true
  | _, _ => false

def joins (s : ClusterState) (k : ClusterClass) : Bool :=
  if s.last == .carriageReturn && k == .lineFeed then true
  else if s.last.isControl || k.isControl then false
  else syllable s.last k
    || k.isExtending || k == .joiner || k == .spacingMark
    || s.last == .prepended
    || s.conjunct == .linked && k == .consonant
    || s.joinedPictograph && k == .pictographic
    || s.lonelyRegional && k == .regional

end ClusterState

def clusterTail (s : ClusterState) : List Char → List Char × List Char
  | [] => ([], [])
  | c :: cs =>
    let k := ClusterClass.of c
    if s.joins k then
      let (tail, rest) := clusterTail (s.next k) cs
      (c :: tail, rest)
    else ([], c :: cs)

theorem clusterTail_append (s : ClusterState) (cs : List Char) :
    (clusterTail s cs).1 ++ (clusterTail s cs).2 = cs := by
  induction cs generalizing s with
  | nil => rfl
  | cons c cs ih =>
    simp only [clusterTail]
    split
    · exact congrArg (c :: ·) (ih _)
    · rfl

theorem clusterTail_rest_length (s : ClusterState) (cs : List Char) :
    (clusterTail s cs).2.length ≤ cs.length := by
  have h := congrArg List.length (clusterTail_append s cs)
  simp only [List.length_append] at h
  omega

def clusters : List Char → List (List Char)
  | [] => []
  | c :: cs =>
    have := clusterTail_rest_length (.start (.of c)) cs
    (c :: (clusterTail (.start (.of c)) cs).1) :: clusters (clusterTail (.start (.of c)) cs).2
termination_by cs => cs.length
decreasing_by simp only [List.length_cons]; omega

end SoundLaw.Text
