import Grammarian.Text.Classes

/-!
# YAML scalars

Which texts YAML takes for something else than a string when they stand without quotes, and how a
text has to be written so that it is read back as it is.
-/

namespace Grammarian.Yaml

open Text

/-! ## Plain texts that are no strings -/

def isNull (s : String) : Bool := s = "null" || s = "Null" || s = "NULL" || s = "~"

def bool? (s : String) : Option Bool :=
  if s = "true" || s = "True" || s = "TRUE" then some true
  else if s = "false" || s = "False" || s = "FALSE" then some false
  else none

/-- The value of a digit in a base up to sixteen. -/
def digit? (base : Nat) (c : Char) : Option Nat :=
  match hexDigit? c with
  | some d => if d < base then some d else none
  | none => none

/-- The number that digits of a base spell; there has to be one. -/
def digits? (base : Nat) (cs : List Char) : Option Nat :=
  if cs.isEmpty then none
  else cs.foldl (fun n c => match n, digit? base c with
    | some n, some d => some (n * base + d)
    | _, _ => none) (some 0)

/-- The text without a sign at the front. -/
def unsigned : List Char → List Char
  | '+' :: r => r
  | '-' :: r => r
  | cs => cs

/-- Digits that begin with a zero and are therefore no number. -/
def isZeroPadded (cs : List Char) : Bool :=
  match unsigned cs with
  | '0' :: d :: r => (d :: r).all isAsciiDigit
  | _ => false

/-- A number with the mark of its base: `0x`, `0o` or `0b`. -/
def basedNumber? : List Char → Option Nat
  | '0' :: 'x' :: r => digits? 16 r
  | '0' :: 'o' :: r => digits? 8 r
  | '0' :: 'b' :: r => digits? 2 r
  | _ => none

/-- A number without sign or with a plus. -/
def natural? (cs : List Char) : Option Nat :=
  let body := match cs with
    | '+' :: r => r
    | cs => cs
  match basedNumber? body with
  | some n => some n
  | none => if isZeroPadded cs then none else digits? 10 body

/-- A decimal fraction with an optional exponent: all its digits as one number, and the power of ten
that it has to be multiplied by. -/
def fraction? (cs : List Char) : Option (Nat × Int) :=
  let whole := cs.takeWhile isAsciiDigit
  let r := cs.dropWhile isAsciiDigit
  let (part, r) := match r with
    | '.' :: r => (r.takeWhile isAsciiDigit, r.dropWhile isAsciiDigit)
    | r => ([], r)
  match digits? 10 (whole ++ part) with
  | none => none
  | some n =>
    match r with
    | [] => some (n, -(part.length : Int))
    | e :: r =>
      if e = 'e' ∨ e = 'E' then
        match digits? 10 (unsigned r) with
        | some k => some (n, (if r.head? = some '-' then -(k : Int) else k) - part.length)
        | none => none
      else none

/-- Whether `n` times ten to the `power` is small enough for a double-precision number: less than the
middle between the greatest of them and the next power of two. -/
def isFinite (n : Nat) (power : Int) : Bool :=
  let size := (Nat.toDigits 10 n).length + power
  n = 0 || size < 300 ||
    (size < 320 &&
      (if 0 ≤ power then n * Nat.pow 10 power.toNat < (Nat.pow 2 54 - 1) * Nat.pow 2 970
        else n < (Nat.pow 2 54 - 1) * Nat.pow 2 970 * Nat.pow 10 (-power).toNat))

/-- Whether a text without sign, or with a minus, is a number with a fraction or exponent. -/
def isFraction (cs : List Char) : Bool :=
  let body := match cs with
    | '-' :: r => r
    | cs => cs
  match fraction? body with
  | some (n, power) => isFinite n power
  | none => false

/-- Whether a plain text is a number. -/
def isNumber (s : String) : Bool :=
  let cs := s.toList
  let body := match cs with
    | '+' :: r => r
    | cs => cs
  let isBased := match basedNumber? body with
    | some n => n < Nat.pow 2 128
    | none => false
  let isNegativeBased := match cs with
    | '-' :: r => match basedNumber? r with
      | some n => n ≤ Nat.pow 2 127
      | none => false
    | _ => false
  let isSpecial := body = ".inf".toList || body = ".Inf".toList || body = ".INF".toList
    || s = "-.inf" || s = "-.Inf" || s = "-.INF" || s = ".nan" || s = ".NaN" || s = ".NAN"
  let isSigned := body.head? = some '+' || body.head? = some '-'
  isBased || isNegativeBased || isSpecial
    || (!isZeroPadded cs && !(cs.head? = some '+' && isSigned) && isFraction body)

/-- Whether a plain text would be read as something else than a string, or as a number by some. -/
def isAmbiguous (s : String) : Bool :=
  s = "" || isNull s || (bool? s).isSome || isNumber s || isZeroPadded s.toList

/-! ## Styles -/

/-- How a scalar is written. -/
inductive Style where
  | plain
  | singleQuoted
  | doubleQuoted
  /-- line by line below a bar -/
  | block
  deriving DecidableEq

def isBreak (c : Char) : Bool :=
  c = '\n' || c = '\r' || c = '\u0085' || c = '\u2028' || c = '\u2029'

/-- Blanks, line breaks and the null character part words. -/
def isBlankOrBreak (c : Char) : Bool := c = ' ' || c = '\t' || c = '\x00' || isBreak c

/-- Characters that may stand as they are. -/
def isPrintable (c : Char) : Bool :=
  c = '\n' || (' ' ≤ c && c ≤ '~')
    || ('\u00a0' ≤ c && c ≠ '\ufeff' && c ≠ '\ufffe' && c ≠ '\uffff')

/-- Whether some character for which `first` holds is followed by one for which `second` does. -/
def hasPair (first second : Char → Bool) (cs : List Char) : Bool :=
  (cs.zip cs.tail).any fun (c, d) => first c && second d

/-- The characters that cannot begin a plain scalar. -/
def isIndicator (c : Char) : Bool :=
  c ∈ ['#', ',', '[', ']', '\x7b', '\x7d', '&', '*', '!', '|', '>', '\'', '"', '%', '@', '\x60']

/-- Whether something in the text would be taken for an indicator if it stood without quotes. -/
def hasIndicator (cs : List Char) : Bool :=
  ['-', '-', '-'].isPrefixOf cs || ['.', '.', '.'].isPrefixOf cs
    || cs.head?.any isIndicator
    || (match cs with
      | c :: r => (c = '?' || c = '-') && r.head?.all isBlankOrBreak
      | [] => false)
    || hasPair (· = ':') isBlankOrBreak cs || cs.getLast? = some ':'
    || hasPair isBlankOrBreak (· = '#') cs

def hasSpecial (cs : List Char) : Bool := cs.any fun c => !isPrintable c

def breakThenSpace (cs : List Char) : Bool := hasPair isBreak (· = ' ') cs

def spaceThenBreak (cs : List Char) : Bool := hasPair (· = ' ') isBreak cs

def allowsPlain (cs : List Char) : Bool :=
  !(hasSpecial cs || cs.any isBreak || hasIndicator cs
    || cs.head? = some ' ' || cs.getLast? = some ' ')

def allowsSingle (cs : List Char) : Bool :=
  !(hasSpecial cs || breakThenSpace cs || spaceThenBreak cs)

def allowsBlock (cs : List Char) : Bool :=
  !(hasSpecial cs || spaceThenBreak cs || cs.getLast? = some ' ')

/-- The style of a text: a block when it has several lines, quotes when it would be ambiguous or does
not look like a plain scalar, and double quotes when nothing else can hold it. -/
def styleOf (s : String) : Style :=
  let cs := s.toList
  if cs.contains '\n' then (if allowsBlock cs then .block else .doubleQuoted)
  else if !isAmbiguous s && allowsPlain cs then .plain
  else if allowsSingle cs then .singleQuoted
  else .doubleQuoted

/-! ## Writing -/

def spaces (n : Nat) : List Char := List.replicate n ' '

/-- The characters of a text, every line after a break moved in by `indent`. -/
def indented (indent : Nat) (afterBreak : Bool) (charText : Char → List Char) :
    List Char → List Char
  | [] => []
  | c :: cs =>
    if isBreak c then c :: indented indent true charText cs
    else (if afterBreak then spaces indent else []) ++ charText c
      ++ indented indent false charText cs

/-- A text between single quotes. -/
def singleQuoted (indent : Nat) (cs : List Char) : List Char :=
  let body := indented indent false (fun c => if c = '\'' then ['\'', '\''] else [c]) cs
  let ending := if cs.getLast?.any isBreak then spaces indent else []
  '\'' :: body ++ ending ++ ['\'']

def upperHex (width n : Nat) : List Char :=
  zeroPadded width ((Nat.toDigits 16 n).map Char.toUpper)

/-- One character between double quotes. -/
def doubleQuotedChar (c : Char) : List Char :=
  if isPrintable c && !isBreak c && c ≠ '"' && c ≠ '\\' then [c]
  else '\\' :: match c with
    | '\x00' => ['0']
    | '\x07' => ['a']
    | '\x08' => ['b']
    | '\t' => ['t']
    | '\n' => ['n']
    | '\x0b' => ['v']
    | '\x0c' => ['f']
    | '\r' => ['r']
    | '\x1b' => ['e']
    | '"' => ['"']
    | '\\' => ['\\']
    | '\u0085' => ['N']
    | '\u2028' => ['L']
    | '\u2029' => ['P']
    | c =>
      if c.toNat ≤ 0xff then 'x' :: upperHex 2 c.toNat
      else if c.toNat ≤ 0xffff then 'u' :: upperHex 4 c.toNat
      else 'U' :: upperHex 8 c.toNat

def doubleQuoted (cs : List Char) : List Char := '"' :: cs.flatMap doubleQuotedChar ++ ['"']

/-- The sign after the bar that tells how many line breaks end the text: `-` none, `+` several. -/
def chomping (cs : List Char) : List Char :=
  match cs.reverse with
  | c :: d :: _ => if !isBreak c then ['-'] else if isBreak d then ['+'] else []
  | [c] => if isBreak c then ['+'] else ['-']
  | [] => ['-']

/-- A text line by line, below a bar. -/
def block (indent : Nat) (cs : List Char) : List Char :=
  let hint := if cs.head?.any fun c => c = ' ' || isBreak c then ['2'] else []
  let body := indented indent true (fun c => [c]) cs
  '|' :: hint ++ chomping cs ++ ['\n'] ++ body

/-- A scalar and the end of its line; lines after the first are moved in by `indent`. -/
def scalarLine (indent : Nat) (s : String) : String :=
  let cs := s.toList
  let text := match styleOf s with
    | .plain => cs
    | .singleQuoted => singleQuoted indent cs
    | .doubleQuoted => doubleQuoted cs
    | .block => block indent cs
  String.ofList (if text.getLast? = some '\n' then text else text ++ ['\n'])

end Grammarian.Yaml
