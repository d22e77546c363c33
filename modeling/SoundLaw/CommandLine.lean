import SoundLaw.Script

/-!
# The command line

What the program does once its files have been read, or could not be. Rules are read in the
model without features, and every line of the lexicon that is not blank is a word.
-/

namespace SoundLaw
set_option autoImplicit false
open Text

/-- The content of a file, or the reason why it could not be read. -/
abbrev Content := Except String String

structure Options where
  rules : String
  /-- The words are read from the standard input where no file is named. -/
  lexicon : Option String := none
  verbose : Bool := false
  traced : Bool := false
  deriving DecidableEq, Repr

namespace Options

structure Draft where
  rules : Option String := none
  lexicon : Option String := none
  verbose : Bool := false
  traced : Bool := false

/-- Options of one letter each, the last of which may have a value written in one with it. -/
def separateLetters (letter : Char) : List Char → List (List Char)
  | [] => [['-', letter]]
  | c :: rest =>
    if letter = 'r' ∨ letter = 'l' then [['-', letter], if c = '=' then rest else c :: rest]
    else ['-', letter] :: separateLetters c rest

def separate (argument : List Char) : List (List Char) :=
  match argument with
  | '-' :: '-' :: _ =>
    match cut? '=' argument with
    | some (name, value) => [name, value]
    | none => [argument]
  | '-' :: letter :: rest => separateLetters letter rest
  | _ => [argument]

def readFrom (d : Draft) : List String → Except String Options
  | [] =>
    match d.rules with
    | some rules => .ok ⟨rules, d.lexicon, d.verbose, d.traced⟩
    | none => .error "no rules given, use --rules FILE"
  | "--rules" :: path :: rest | "-r" :: path :: rest => readFrom { d with rules := some path } rest
  | "--lexicon" :: path :: rest | "-l" :: path :: rest =>
    readFrom { d with lexicon := some path } rest
  | "--verbose" :: rest | "-v" :: rest => readFrom { d with verbose := true } rest
  | "--trace-words" :: rest | "-t" :: rest => readFrom { d with traced := true } rest
  | argument :: _ => .error s!"unexpected argument {argument}"

def ofArguments (arguments : List String) : Except String Options :=
  readFrom {} ((arguments.flatMap fun a => separate a.toList).map String.ofList)

end Options

structure Outcome where
  code : Nat
  output : String
  complaint : String
  deriving DecidableEq, Repr

namespace Outcome

def failure (complaint : String) : Outcome := ⟨1, "", complaint ++ "\n"⟩

end Outcome

def wordsOf (s : Script) (lexicon : String) : List Word :=
  (((lines lexicon.toList).map trim).filter (!·.isEmpty)).map fun line =>
    s.segmenter.segment (String.ofList line)

def report (s : Script) (traced : Bool) (w : Word) : String :=
  let outcome := (s.apply w).text
  if traced then s!"{w.text} -> {outcome}\n" else outcome ++ "\n"

def prepare (o : Options) : (rules : Content) → Except Outcome Script
  | .error reason => .error (.failure s!"{o.rules}: {reason}")
  | .ok text => (Script.ofText .empty text).mapError fun e => .failure e.message

def finish (o : Options) (s : Script) : (lexicon : Content) → Outcome
  | .error reason => .failure s!"failed to read lexicon: {reason}"
  | .ok text => ⟨0, String.join ((wordsOf s text).map (report s o.traced)), ""⟩

/-- The outcome of a call, given what was read. The rules are looked at before the lexicon. -/
def outcome (o : Options) (rules lexicon : Content) : Outcome :=
  match prepare o rules with
  | .error failure => failure
  | .ok s => finish o s lexicon

end SoundLaw
