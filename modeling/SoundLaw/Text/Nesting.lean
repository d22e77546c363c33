import SoundLaw.Text.Blank

/-!
# Words outside brackets

Rules and environments are lists of words in which a bracketed part may contain blanks. All
kinds of brackets nest alike, and one that closes nothing is passed over.
-/

namespace SoundLaw.Text
set_option autoImplicit false

def nestingBehind (depth : Nat) (c : Char) : Nat :=
  if c = '(' ∨ c = '[' ∨ c = '\x7b' then depth + 1
  else if c = ')' ∨ c = ']' ∨ c = '\x7d' then depth - 1
  else depth

def wordOf (word : List Char) : List (List Char) := if word.isEmpty then [] else [word]

def outerWordsFrom (depth : Nat) (word : List Char) : List Char → List (List Char)
  | [] => wordOf word
  | c :: cs =>
    if isBlank c ∧ depth = 0 then wordOf word ++ outerWordsFrom 0 [] cs
    else outerWordsFrom (nestingBehind depth c) (word ++ [c]) cs

/-- The words of a text, which only blanks outside brackets separate. -/
def outerWords (text : String) : List String :=
  (outerWordsFrom 0 [] text.toList).map String.ofList

end SoundLaw.Text
