/-
RangedIR.Text.Quoted — texts in quotation marks.

A quotation writes every character of a text on one line: visible characters
stand for themselves, a few have a letter behind a backslash, and the others
are written by their number in braces.
-/
import RangedIR.Text.Visible

namespace RangedIR.Text

/-- A character by its number, in lower-case hexadecimal digits. -/
def byNumber (c : Char) : List Char := '\\' :: 'u' :: '\x7b' :: (Nat.toDigits 16 c.toNat ++ ['\x7d'])

/-- One character of a quotation. -/
def quotedChar (c : Char) : List Char :=
  match c with
  | '\x00' => ['\\', '0']
  | '\t' => ['\\', 't']
  | '\r' => ['\\', 'r']
  | '\n' => ['\\', 'n']
  | '\\' => ['\\', '\\']
  | '"' => ['\\', '"']
  | c => if isVisible c then [c] else byNumber c

/-- A text in quotation marks. -/
def quoted (s : String) : String :=
  String.ofList ('"' :: (s.toList.flatMap quotedChar ++ ['"']))

end RangedIR.Text
