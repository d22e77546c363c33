import SoundLaw.Environment
import SoundLaw.Rule.Change
import SoundLaw.Text.Alphabetic

/-!
# Reading rules

A rule is written `sources > targets / environment`. Both sides are lists of words, which are
paired up; a source is a row of elements, and its target refers to them by number: `$2` repeats
the second one, `$G2` is its counterpart in the macro `G`, and a bundle is written over the
element in its own place. The word `0` stands for nothing on either side.
-/

namespace SoundLaw
set_option autoImplicit false
open Text

structure Rule where
  text : String
  model : FeatureModel
  changes : List Change
  environment : Environment

def elementOf (macros : MacroTable) (word : String) : Lexeme → Except Fault Element
  | .atom (.symbol symbol) => .ok (.literal (macros.model.resolve symbol))
  | .atom (.bundle descriptor) => (macros.model.resolveBundle descriptor).map .literal
  | .atom .wildcard => .ok .wildcard
  | .atom (.name name) => ((macros.alternatives name).map (.named name)).mapError .pattern
  | _ => .error (.rule (.illegalSource word))

def readSource (macros : MacroTable) (word : String) : Except Fault (List Element) :=
  if word = "0" then .ok []
  else do
    let lexemes ← (Lexeme.ofText macros word).mapError Fault.pattern
    lexemes.mapM (elementOf macros word)

def macroAt? (macros : MacroTable) (text : List Char) : Option String :=
  (macros.names.filter (·.toList.isPrefixOf text)).foldl
    (fun best name =>
      match best with
      | some other => if other.utf8ByteSize ≤ name.utf8ByteSize then some name else best
      | none => some name)
    none

/-- The element that a number refers to, counted from one. No digits are no number. -/
def elementAt (source : List Element) (word : String) (digits : List Char) :
    Except Fault (Nat × Element) :=
  let bad := Fault.rule (.badBackReference word)
  let number := Numeral.natOfDigits digits
  if number = 0 then .error bad
  else match source[number - 1]? with
    | some e => .ok (number - 1, e)
    | none => .error bad

def readReference (macros : MacroTable) (source : List Element) (word : String)
    (text : List Char) : Except Fault (TargetItem × List Char) := do
  let name? := macroAt? macros text
  let letters := text.takeWhile isAlphabetic
  if name?.isNone && !letters.isEmpty then
    throw (.pattern (.unknownMacro (String.ofList letters)))
  let text := text.drop ((name?.map String.length).getD 0)
  let (index, e) ← elementAt source word (text.takeWhile Char.isDigit)
  let rest := text.dropWhile Char.isDigit
  match name? with
  | none => return (.repeated index, rest)
  | some name =>
    let alternatives ← (macros.alternatives name).mapError Fault.pattern
    match e with
    | .named _ others =>
      if others.length = alternatives.length then return (.counterpart index alternatives, rest)
      else throw (.rule (.classMismatch word))
    | _ => throw (.rule (.classMismatch word))

def readOverwrite (macros : MacroTable) (source : List Element) (word : String) (index : Nat)
    (text : List Char) : Except Fault (TargetItem × List Char) :=
  match cut? ']' text with
  | none => .error (.pattern (.unmatchedBracket word))
  | some (inner, rest) => do
    let bundle ← macros.model.resolveBundle (String.ofList ('[' :: inner ++ [']']))
    if source.length ≤ index then throw (.rule (.badBackReference word))
    return (.overwritten index bundle, rest)

def isLiteral (c : Char) : Bool := c != '$' && c != '['

def literalItems (macros : MacroTable) (run : List Char) : List TargetItem :=
  ((Segmenter.ofModel macros.model).segment (String.ofList run)).segments.map .literal

theorem length_readReference_le {macros : MacroTable} {source : List Element} {word : String}
    {text rest : List Char} {item : TargetItem}
    (h : readReference macros source word text = .ok (item, rest)) :
    rest.length ≤ text.length := by
  have hle : ∀ n, ((text.drop n).dropWhile Char.isDigit).length ≤ text.length := fun n =>
    Nat.le_trans (length_dropWhile_le _ _) (by simp)
  unfold readReference at h
  simp only [bind, Except.bind, pure, Except.pure, throw, throwThe, MonadExceptOf.throw] at h
  repeat' split at h
  all_goals first
    | cases h; done
    | (cases h; exact hle _)

theorem length_readOverwrite_lt {macros : MacroTable} {source : List Element} {word : String}
    {index : Nat} {text rest : List Char} {item : TargetItem}
    (h : readOverwrite macros source word index text = .ok (item, rest)) :
    rest.length < text.length := by
  unfold readOverwrite at h
  split at h
  · cases h
  · rename_i hcut
    simp only [bind, Except.bind, pure, Except.pure, throw, throwThe, MonadExceptOf.throw] at h
    repeat' split at h
    all_goals first
      | cases h; done
      | (cases h; exact length_lt_of_cut? hcut)

def readItems (macros : MacroTable) (source : List Element) (word : String) (index : Nat) :
    List Char → Except Fault (List TargetItem)
  | [] => .ok []
  | c :: cs =>
    if c = '$' then
      match h : readReference macros source word cs with
      | .error e => .error e
      | .ok (item, rest) =>
        have := length_readReference_le h
        return item :: (← readItems macros source word (index + 1) rest)
    else if c = '[' then
      match h : readOverwrite macros source word index cs with
      | .error e => .error e
      | .ok (item, rest) =>
        have := length_readOverwrite_lt h
        return item :: (← readItems macros source word (index + 1) rest)
    else
      have := length_dropWhile_le isLiteral cs
      let items := literalItems macros (c :: cs.takeWhile isLiteral)
      return items
        ++ (← readItems macros source word (index + items.length) (cs.dropWhile isLiteral))
termination_by cs => cs.length
decreasing_by all_goals simp only [List.length_cons]; omega

def readTarget (macros : MacroTable) (source : List Element) (word : String) :
    Except Fault (List TargetItem) :=
  if word = "0" then .ok [] else readItems macros source word 0 word.toList

/-- Pairs the words of the two sides of a rule. A target that is only the word for nothing
goes with every source. -/
def pairWords (rule : String) (sources targets : List String) :
    Except RuleFault (List (String × String)) :=
  if sources.isEmpty ∨ targets.isEmpty then .error (.emptySide rule)
  else if 1 < sources.count "0" ∨ 1 < targets.count "0" then .error (.multipleZeros rule)
  else if targets = ["0"] then .ok (sources.map (·, "0"))
  else if sources.length = targets.length then .ok (sources.zip targets)
  else .error (.countMismatch rule sources.length targets.length)

def Change.ofWords (macros : MacroTable) (source target : String) : Except Fault Change := do
  let elements ← readSource macros source
  let items ← readTarget macros elements target
  return ⟨elements, items, s!"{source} > {target}"⟩

def readChanges (macros : MacroTable) (rule : String) (text : List Char) :
    Except Fault (List Change) :=
  match splitAt '>' text with
  | [left, right] => do
    let sources := outerWords (String.ofList left)
    let targets := outerWords (String.ofList right)
    let pairs ← (pairWords rule sources targets).mapError Fault.rule
    pairs.mapM fun (source, target) => Change.ofWords macros source target
  | _ => .error (.rule (.arrowCount rule))

/-- Reads a rule. It keeps the alternatives that the macros have now. -/
def Rule.ofText (macros : MacroTable) (text : String) : Except Fault Rule := do
  let trimmed := trim text.toList
  let (change, environment) := (cut? '/' trimmed).getD (trimmed, [])
  return {
    text := String.ofList trimmed
    model := macros.model
    changes := ← readChanges macros (String.ofList trimmed) change
    environment := ← Environment.ofText macros (String.ofList environment) }

end SoundLaw
