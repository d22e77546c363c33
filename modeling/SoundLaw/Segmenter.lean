import SoundLaw.Text.Blank
import SoundLaw.Text.Cluster
import SoundLaw.Word

/-!
# Segmentation

A text is cut into symbols along the boundaries of its grapheme clusters. At each place the
longest known symbol that ends at such a boundary is taken, or one cluster where none fits, and
with it the clusters behind it that begin with a modifier letter. What is blank is left out.
-/

namespace SoundLaw
set_option autoImplicit false
open Text

def isModifier (c : Char) : Bool :=
  let n := c.toNat
  0x02B0 ≤ n && n ≤ 0x02FF || 0x1D2C ≤ n && n ≤ 0x1D6A || n == 0x207F

def isModifierCluster : List Char → Bool
  | [] => false
  | c :: _ => isModifier c

/-- The clusters behind those that spell out a text, if the clusters begin by spelling it. -/
def afterSpelling? : List Char → List (List Char) → Option (List (List Char))
  | [], rest => some rest
  | _ :: _, [] => none
  | text, cluster :: rest =>
    if cluster.isPrefixOf text then afterSpelling? (text.drop cluster.length) rest else none

/-- The clusters behind the head of a unit: the first known symbol that can be spelled, or the
first cluster. -/
def afterHead (symbols : List (List Char)) (cluster : List Char)
    (rest : List (List Char)) : List (List Char) :=
  match symbols.findSome? (afterSpelling? · (cluster :: rest)) with
  | some behind => if behind.length ≤ rest.length then behind else rest
  | none => rest

theorem afterHead_length_le (symbols : List (List Char)) (cluster : List Char)
    (rest : List (List Char)) : (afterHead symbols cluster rest).length ≤ rest.length := by
  unfold afterHead
  split
  · split
    · assumption
    · exact Nat.le_refl _
  · exact Nat.le_refl _

def afterUnit (symbols : List (List Char)) (cluster : List Char)
    (rest : List (List Char)) : List (List Char) :=
  (afterHead symbols cluster rest).dropWhile isModifierCluster

theorem afterUnit_length_le (symbols : List (List Char)) (cluster : List Char)
    (rest : List (List Char)) : (afterUnit symbols cluster rest).length ≤ rest.length :=
  Nat.le_trans (length_dropWhile_le _ _) (afterHead_length_le _ _ _)

def unitsOf (symbols : List (List Char)) : List (List Char) → List (List (List Char))
  | [] => []
  | cluster :: rest =>
    have := afterUnit_length_le symbols cluster rest
    (cluster :: rest).take (rest.length + 1 - (afterUnit symbols cluster rest).length)
      :: unitsOf symbols (afterUnit symbols cluster rest)
termination_by clusters => clusters.length
decreasing_by simp only [List.length_cons]; omega

structure Segmenter where
  model : FeatureModel
  symbols : List String

namespace Segmenter

/-- Longer symbols first, by their encoded size, and alphabetically among equals. -/
def precedes (s t : String) : Bool :=
  t.utf8ByteSize < s.utf8ByteSize || s.utf8ByteSize == t.utf8ByteSize && s ≤ t

def withSymbols (m : FeatureModel) (extra : List String) : Segmenter where
  model := m
  symbols := ((m.symbols.map Prod.fst ++ extra).filter (!·.isEmpty)).mergeSort precedes

def ofModel (m : FeatureModel) : Segmenter := withSymbols m []

def split (g : Segmenter) (text : String) : List String :=
  let units := unitsOf (g.symbols.map String.toList) (clusters text.toList)
  ((units.map List.flatten).filter fun u => !u.all isBlank).map String.ofList

def segment (g : Segmenter) (text : String) : Word :=
  ⟨g.model, (g.split text).map g.model.resolve⟩

end Segmenter

end SoundLaw
