import SoundLaw.CommandLine

/-!
# The program

Reads the files that the options name and prints the outcome.
-/

namespace SoundLaw
set_option autoImplicit false

/-- Why a file could not be read, in the words of the system. -/
def reasonOf : IO.Error → String
  | .noFileOrDirectory .. => "No such file or directory (os error 2)"
  | .permissionDenied .. => "Permission denied (os error 13)"
  | .inappropriateType .. => "Is a directory (os error 21)"
  | e => toString e

def textOf (bytes : ByteArray) : Content :=
  match String.fromUTF8? bytes with
  | some text => .ok text
  | none => .error "stream did not contain valid UTF-8"

def attempt (read : IO ByteArray) : IO Content := do
  try
    return textOf (← read)
  catch e => return .error (reasonOf e)

def conclude (o : Outcome) : IO UInt32 := do
  (← IO.getStdout).putStr o.output
  (← IO.getStderr).putStr o.complaint
  return o.code.toUInt32

def program (arguments : List String) : IO UInt32 := do
  match Options.ofArguments arguments with
  | .error complaint => conclude ⟨2, "", s!"error: {complaint}\n"⟩
  | .ok o =>
    match prepare o (← attempt (IO.FS.readBinFile o.rules)) with
    | .error failure => conclude failure
    | .ok s =>
      let lexicon ← attempt <| match o.lexicon with
        | some path => IO.FS.readBinFile path
        | none => do (← IO.getStdin).readBinToEnd
      conclude (finish o s lexicon)

end SoundLaw

def main (arguments : List String) : IO UInt32 := SoundLaw.program arguments
