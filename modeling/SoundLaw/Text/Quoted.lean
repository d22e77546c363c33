import SoundLaw.Text.Invisible

/-!
# Quoted text

How a piece of the input is shown within a message: between double quotes, with quotes and
backslashes escaped, the common controls by their letters, and every other character that leaves
no mark of its own by its code point.
-/

namespace SoundLaw.Text
set_option autoImplicit false

def hexDigits (n : Nat) : List Char := Nat.toDigits 16 n

def escape (c : Char) : List Char :=
  match c with
  | '"' => ['\\', '"']
  | '\\' => ['\\', '\\']
  | '\t' => ['\\', 't']
  | '\r' => ['\\', 'r']
  | '\n' => ['\\', 'n']
  | '\x00' => ['\\', '0']
  | c =>
    if isVisible c then [c]
    else ['\\', 'u', '\x7b'] ++ hexDigits c.toNat ++ ['\x7d']

def quoted (s : String) : String :=
  String.ofList ('"' :: s.toList.flatMap escape ++ ['"'])

end SoundLaw.Text
