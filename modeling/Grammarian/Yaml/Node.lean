import Grammarian.Yaml.Line

/-!
# YAML nodes

The values of a YAML document, and the reading of those that are scalars: between quotes, or as they
stand.
-/

namespace Grammarian.Yaml

open Text

/-- A node of a document. -/
inductive Node where
  | scalar (style : Style) (text : String)
  | list (items : List Node)
  | map (fields : List (Node × Node))
  deriving Inhabited

/-- A scalar that is left out. -/
def Node.missing : Node := .scalar .plain ""

/-! ## Between double quotes -/

/-- The escapes that stand for one character. -/
def escapedChar? (c : Char) : Option Char :=
  match c with
  | '0' => some '\x00'
  | 'a' => some '\x07'
  | 'b' => some '\x08'
  | 't' => some '\t'
  | '\t' => some '\t'
  | 'n' => some '\n'
  | 'v' => some '\x0b'
  | 'f' => some '\x0c'
  | 'r' => some '\r'
  | 'e' => some '\x1b'
  | ' ' => some ' '
  | '"' => some '"'
  | '/' => some '/'
  | '\\' => some '\\'
  | 'N' => some '\u0085'
  | '_' => some '\u00a0'
  | 'L' => some '\u2028'
  | 'P' => some '\u2029'
  | _ => none

/-- How many digits the escape of a code has. -/
def codeLength? (c : Char) : Option Nat :=
  match c with
  | 'x' => some 2
  | 'u' => some 4
  | 'U' => some 8
  | _ => none

/-- The text that escapes stand for. -/
def unescape? : List Char → Option (List Char)
  | [] => some []
  | '\\' :: c :: r =>
    match escapedChar? c, codeLength? c with
    | some e, _ => (unescape? r).map (e :: ·)
    | none, some k =>
      let code := r.take k
      if code.length = k ∧ code.all isHexDigit then
        match scalar? (hexValue code), unescape? (r.drop k) with
        | some e, some cs => some (e :: cs)
        | _, _ => none
      else none
    | none, none => none
  | c :: r => (unescape? r).map (c :: ·)
termination_by cs => cs.length
decreasing_by all_goals simp; try omega

/-- What stands up to the closing double quote, escapes kept, and what follows it. An escaped line
break is dropped together with the blanks behind it, for which `skipping` stands. -/
def splitDouble? (skipping : Bool) : List Char → Option (List Char × List Char)
  | [] => none
  | '"' :: r => some ([], r)
  | '\\' :: '\n' :: r => splitDouble? true r
  | '\\' :: c :: r => (splitDouble? false r).map fun (cs, r) => ('\\' :: c :: cs, r)
  | c :: r =>
    if skipping && isBlank c then splitDouble? true r
    else (splitDouble? false r).map fun (cs, r) => (c :: cs, r)

/-! ## Scalars -/

/-- What stands up to the closing single quote, and what follows it. A quote that is doubled stands
for itself. -/
def splitSingle? : List Char → Option (List Char × List Char)
  | [] => none
  | '\'' :: '\'' :: r => (splitSingle? r).map fun (cs, r) => ('\'' :: cs, r)
  | '\'' :: r => some ([], r)
  | c :: r => (splitSingle? r).map fun (cs, r) => (c :: cs, r)

/-- A quoted scalar and what follows it. -/
def readQuoted? : List Char → Option (Node × List Char)
  | '"' :: r => do
    let (cs, r) ← splitDouble? false r
    let text ← unescape? (foldedScalar cs)
    some (.scalar .doubleQuoted (String.ofList text), r)
  | '\'' :: r => do
    let (cs, r) ← splitSingle? r
    some (.scalar .singleQuoted (String.ofList (foldedScalar cs)), r)
  | _ => none

/-- Whether a plain scalar may begin with these characters. -/
def startsPlain : List Char → Bool
  | [] => false
  | c :: r =>
    if c = '-' || c = '?' || c = ':' then r.head?.any fun d => !isBlankOrBreak d
    else !isIndicator c

/-- The front of a text that is one plain scalar, up to a comment or the colon behind a key, and in
brackets up to what ends an item. `gap` tells that a blank stands before. -/
def splitPlain (inFlow gap : Bool) : List Char → List Char × List Char
  | [] => ([], [])
  | c :: r =>
    if gap && c = '#' then ([], c :: r)
    else if c = ':' && r.head?.all isBlankOrBreak then ([], c :: r)
    else if inFlow && c ∈ [',', '[', ']', '\x7b', '\x7d'] then ([], c :: r)
    else
      let (cs, rest) := splitPlain inFlow (isBlankOrBreak c) r
      (c :: cs, rest)

/-- A plain scalar and what follows it. -/
def readPlain? (inFlow : Bool) (cs : List Char) : Option (Node × List Char) :=
  if startsPlain cs then
    match splitPlain inFlow false cs with
    | ([], _) => none
    | (text, r) => some (.scalar .plain (String.ofList (foldedScalar (trimmedEnd text))), r)
  else none

/-- A scalar, quoted or plain, and what follows it. -/
def readScalar? (inFlow : Bool) (cs : List Char) : Option (Node × List Char) :=
  if cs.head? = some '"' ∨ cs.head? = some '\'' then readQuoted? cs else readPlain? inFlow cs

end Grammarian.Yaml
