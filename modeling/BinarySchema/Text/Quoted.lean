/-
# Quoted text

Inside a message a text stands between quotes.  A quote, a backslash and the common control
characters are written by a backslash and a letter, and every other character that does not show by
itself is written by its code point.
-/
import BinarySchema.Text.Hidden

namespace BinarySchema

namespace Text

/-- The hexadecimal digits of a natural, in lower case. -/
def hexDigits (n : Nat) : List Char := Nat.toDigits 16 n

/-- The letter behind the backslash, for the characters that have one. -/
def escapeLetter? : Char → Option Char
  | '\x00' => some '0'
  | '\t' => some 't'
  | '\n' => some 'n'
  | '\x0d' => some 'r'
  | '"' => some '"'
  | '\\' => some '\\'
  | _ => none

/-- A character as it is written between quotes. -/
def quotedChar (c : Char) : List Char :=
  match escapeLetter? c with
  | some letter => ['\\', letter]
  | none => if isHidden c then ['\\', 'u', '\x7b'] ++ hexDigits c.toNat ++ ['\x7d'] else [c]

/-- A text between quotes. -/
def quoted (s : String) : String :=
  String.ofList ('"' :: s.toList.flatMap quotedChar ++ ['"'])

/-- Texts between brackets, separated by commas. -/
def bracketed (items : List String) : String := "[" ++ ", ".intercalate items ++ "]"

/-- Texts between braces, separated by commas. -/
def braced (items : List String) : String := "\x7b" ++ ", ".intercalate items ++ "\x7d"

end Text

end BinarySchema
