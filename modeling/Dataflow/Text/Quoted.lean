import Dataflow.Text.Hidden
set_option autoImplicit false

/-! Texts in quotes for a reader of diagnostics, with every hidden character spelled out. -/

namespace Dataflow.Text

def hexChars (n : Nat) : List Char := Nat.toDigits 16 n

def spell (c : Char) : List Char :=
  match c with
  | '"' => ['\\', '"']
  | '\\' => ['\\', '\\']
  | '\n' => ['\\', 'n']
  | '\r' => ['\\', 'r']
  | '\t' => ['\\', 't']
  | c =>
    if c.toNat = 0 then ['\\', '0']
    else if isHidden c then ['\\', 'u', '\x7b'] ++ hexChars c.toNat ++ ['\x7d']
    else [c]

def quoted (s : String) : String := String.ofList ('"' :: s.toList.flatMap spell ++ ['"'])

end Dataflow.Text
