/-
  FeatureCut/Text/Quoted.lean
  ===========================
  **Quoted text.**

  A text between double quotes, as it is shown in reports: quotes, backslashes
  and the usual controls are escaped by a backslash, and a character without a
  form of its own is written as a code point in braces.
-/
import FeatureCut.Text.Hidden

namespace FeatureCut

/-- How one character is shown between quotes. -/
def quotedChar (c : Char) : List Char :=
  match c with
  | '"' => ['\\', '"']
  | '\\' => ['\\', '\\']
  | '\t' => ['\\', 't']
  | '\r' => ['\\', 'r']
  | '\n' => ['\\', 'n']
  | c =>
    if c.toNat = 0 then ['\\', '0']
    else if isHidden c then ['\\', 'u', '\x7b'] ++ Nat.toDigits 16 c.toNat ++ ['\x7d']
    else [c]

def quoted (cs : List Char) : List Char := '"' :: cs.flatMap quotedChar ++ ['"']

end FeatureCut
