import Grammarian.Text.Hex

/-!
# Quoted literals

Grammar text writes an exact string between quotes. `decode` reads such a text: the quotes are taken
off when both ends carry the same one, and escapes are resolved. `quote` writes a value so that
`decode` gives it back.
-/

namespace Grammarian.Literal

open Text

/-- A quotation mark. -/
def isQuote (c : Char) : Bool := c = '"' || c = '\''

/-- The text without its first and last character, when these are the same quotation mark. -/
def unquoted (cs : List Char) : List Char :=
  match cs with
  | q :: d :: r => if isQuote q ∧ (d :: r).getLast? = some q then (d :: r).dropLast else cs
  | _ => cs

/-- The character of a numeric escape: exactly `count` hexadecimal digits at the front of `cs` that
name a character. -/
def codedChar? (count : Nat) (cs : List Char) : Option Char :=
  let code := cs.take count
  if code.length = count ∧ code.all isHexDigit then scalar? (hexValue code) else none

/-- The value of an unquoted text. `\n \r \t \0` stand for control characters, `\x` and `\u` take two
and four hexadecimal digits, and any other escaped character stands for itself; a code that names no
character leaves its letter and digits as they are. -/
def unescaped : List Char → List Char
  | [] => []
  | ['\\'] => ['\\']
  | '\\' :: 'n' :: r => '\n' :: unescaped r
  | '\\' :: 'r' :: r => '\r' :: unescaped r
  | '\\' :: 't' :: r => '\t' :: unescaped r
  | '\\' :: '0' :: r => '\x00' :: unescaped r
  | '\\' :: 'x' :: r =>
    match codedChar? 2 r with
    | some c => c :: unescaped (r.drop 2)
    | none => 'x' :: unescaped r
  | '\\' :: 'u' :: r =>
    match codedChar? 4 r with
    | some c => c :: unescaped (r.drop 4)
    | none => 'u' :: unescaped r
  | '\\' :: c :: r => c :: unescaped r
  | c :: r => c :: unescaped r
termination_by cs => cs.length

/-- The value of a quoted literal. -/
def decode (text : String) : String := String.ofList (unescaped (unquoted text.toList))

/-- The quotation mark that `quote` takes: the double one, unless it occurs in the value and the
single one does not. -/
def quoteMark (cs : List Char) : Char :=
  if '"' ∈ cs ∧ '\'' ∉ cs then '\'' else '"'

/-- One character of a value between two marks `q`. -/
def quotedChar (q c : Char) : List Char :=
  match c with
  | '\\' => ['\\', '\\']
  | '\n' => ['\\', 'n']
  | '\r' => ['\\', 'r']
  | '\t' => ['\\', 't']
  | c => if c = q then ['\\', c] else [c]

/-- The characters of a value in quotes. -/
def quoted (cs : List Char) : List Char :=
  quoteMark cs :: cs.flatMap (quotedChar (quoteMark cs)) ++ [quoteMark cs]

/-- A value written as a literal. -/
def quote (value : String) : String := String.ofList (quoted value.toList)

end Grammarian.Literal
