import Grammarian.Yaml.Node

/-!
# YAML in brackets

Lists in brackets and mappings in braces, as JSON has them too. The functions that call one another
carry a bound on the number of calls, which the length of the text provides.
-/

namespace Grammarian.Yaml

/-- The text behind blanks, line breaks and comments. `gap` tells that a blank stands before. -/
def skipGap (gap inComment : Bool) : List Char → List Char
  | [] => []
  | c :: r =>
    if inComment then skipGap true (!isBreak c) r
    else if isBlankOrBreak c then skipGap true false r
    else if gap && c = '#' then skipGap true true r
    else c :: r

mutual

/-- A node within brackets. -/
def readFlow? : Nat → List Char → Option (Node × List Char)
  | 0, _ => none
  | n + 1, cs =>
    match cs with
    | '[' :: r => readItems? n [] (skipGap true false r)
    | '\x7b' :: r => readFields? n [] (skipGap true false r)
    | cs => readScalar? true cs

/-- A node and, if a colon follows it, the value behind that. -/
def readPair? : Nat → List Char → Option ((Node × Option Node) × List Char)
  | 0, _ => none
  | n + 1, cs => do
    let (key, r) ← readFlow? n cs
    match skipGap false false r with
    | ':' :: r =>
      let r := skipGap true false r
      if r.head?.any (· ∈ [',', ']', '\x7d']) then some ((key, some .missing), r)
      else do
        let (value, r) ← readFlow? n r
        some ((key, some value), skipGap false false r)
    | r => some ((key, none), r)

/-- The items of a list behind those in `items`, up to the closing bracket. A pair is a mapping of one
field. -/
def readItems? : Nat → List Node → List Char → Option (Node × List Char)
  | 0, _, _ => none
  | _, items, ']' :: r => some (.list items, r)
  | n + 1, items, cs => do
    let ((key, value), r) ← readPair? n cs
    let item := match value with
      | some v => Node.map [(key, v)]
      | none => key
    match r with
    | ',' :: r => readItems? n (items ++ [item]) (skipGap true false r)
    | ']' :: r => some (.list (items ++ [item]), r)
    | _ => none

/-- The fields of a mapping behind those in `fields`, up to the closing brace. -/
def readFields? : Nat → List (Node × Node) → List Char → Option (Node × List Char)
  | 0, _, _ => none
  | _, fields, '\x7d' :: r => some (.map fields, r)
  | n + 1, fields, cs => do
    let ((key, value), r) ← readPair? n cs
    let field := (key, value.getD .missing)
    match r with
    | ',' :: r => readFields? n (fields ++ [field]) (skipGap true false r)
    | '\x7d' :: r => some (.map (fields ++ [field]), r)
    | _ => none

end

/-- A scalar or a node in brackets that takes up the whole text. -/
def readInline? (text : List Char) : Option Node :=
  match skipGap true false text with
  | [] => some .missing
  | cs => do
    let isBracket := cs.head? = some '[' ∨ cs.head? = some '\x7b'
    let (node, r) ← if isBracket then readFlow? (2 * cs.length + 2) cs else readScalar? false cs
    let gap := r.length < cs.length ∧ cs[cs.length - r.length - 1]?.any isBlankOrBreak
    if (skipGap gap false r).isEmpty then some node else none

end Grammarian.Yaml
