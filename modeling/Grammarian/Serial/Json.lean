import Grammarian.Serial.Value
import Grammarian.Text.Hex

/-!
# Values as JSON text

The layout for reading by people: a field or item a line, two blanks of indentation a level.
-/

namespace Grammarian.Json

open Text

/-- One character inside a string. -/
def charText (c : Char) : List Char :=
  match c with
  | '"' => ['\\', '"']
  | '\\' => ['\\', '\\']
  | '\n' => ['\\', 'n']
  | '\r' => ['\\', 'r']
  | '\t' => ['\\', 't']
  | '\x08' => ['\\', 'b']
  | '\x0c' => ['\\', 'f']
  | c => if c < ' ' then '\\' :: 'u' :: zeroPadded 4 (hexDigits c.toNat) else [c]

/-- A string in quotes. -/
def stringText (s : String) : String :=
  String.ofList ('"' :: s.toList.flatMap charText ++ ['"'])

/-- The beginning of a line at a level. -/
def margin (level : Nat) : String := String.ofList (List.replicate (2 * level) ' ')

/-- A number with `places` digits behind the point. -/
def decimalText (mantissa : Int) (places : Nat) : String :=
  let digits := zeroPadded (places + 1) (Nat.toDigits 10 mantissa.natAbs)
  (if mantissa < 0 then "-" else "") ++ String.ofList (digits.take (digits.length - places))
    ++ "." ++ String.ofList (digits.drop (digits.length - places))

/-- Lines between brackets; nothing stands between the brackets of an empty collection. -/
def bracketed (level : Nat) (opening closing : String) (lines : List String) : String :=
  if lines.isEmpty then opening ++ closing
  else
    opening ++ "\n" ++ ",\n".intercalate (lines.map (margin (level + 1) ++ ·)) ++ "\n"
      ++ margin level ++ closing

mutual

/-- A value at a level of indentation. -/
def textAt (level : Nat) : Value → String
  | .null => "null"
  | .bool b => if b then "true" else "false"
  | .int n => toString n
  | .decimal mantissa places => decimalText mantissa places
  | .string s => stringText s
  | .list items => bracketed level "[" "]" (itemTexts (level + 1) items)
  | .object fields => bracketed level "\x7b" "\x7d" (fieldTexts (level + 1) fields)

def itemTexts (level : Nat) : List Value → List String
  | [] => []
  | v :: vs => textAt level v :: itemTexts level vs

def fieldTexts (level : Nat) : List (String × Value) → List String
  | [] => []
  | (key, v) :: fields => (stringText key ++ ": " ++ textAt level v) :: fieldTexts level fields

end

/-- A value as text. -/
def text (v : Value) : String := textAt 0 v

end Grammarian.Json
