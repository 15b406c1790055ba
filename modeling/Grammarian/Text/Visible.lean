import Grammarian.Text.Classes

/-!
# Visible text

A text put into double quotes, with every character that would not show, or would be mistaken for
the closing quote, written as an escape. Messages and drawings use this form, so each of them stays
on one line.
-/

namespace Grammarian.Text

/-- One character inside visible text. -/
def visibleChar (c : Char) : List Char :=
  match c with
  | '"' => ['\\', '"']
  | '\\' => ['\\', '\\']
  | '\n' => ['\\', 'n']
  | '\r' => ['\\', 'r']
  | '\t' => ['\\', 't']
  | '\x00' => ['\\', '0']
  | c => if isHidden c then '\\' :: 'u' :: '\x7b' :: hexDigits c.toNat ++ ['\x7d'] else [c]

/-- The visible form of a text, quotes included. -/
def visible (cs : List Char) : List Char :=
  '"' :: cs.flatMap visibleChar ++ ['"']

/-- The visible form of `s`, quotes included. -/
def visibleString (s : String) : String := String.ofList (visible s.toList)

end Grammarian.Text
