import Grammarian.Yaml.Flow

/-!
# YAML documents

A reader for the part of YAML that settings are written in: mappings and lists, indented or in
brackets, quoted and plain scalars, text blocks, comments and the marks around a document. There are
no anchors, tags and keys on several lines; a text that uses them is refused like an ill-formed one.
-/

namespace Grammarian.Yaml

/-- The key of a line, and what stands behind its colon. -/
def readKey? (line : List Char) : Option (Node × List Char) := do
  let (key, r) ← readScalar? false line
  match r.dropWhile isBlank with
  | ':' :: r => if r.head?.all isBlank then some (key, r) else none
  | _ => none

/-- The lines that belong to the one before them, which is moved in by `indent`, and the others. -/
def nestedLines (indent : Nat) (ls : List (List Char)) : List (List Char) × List (List Char) :=
  ls.span fun l => isEmptyLine l || indent < indentOf l

/-- As `nestedLines`, for a line that is a key: the items of its list need not be moved in further. -/
def valueLines (indent : Nat) (first : List Char) (ls : List (List Char)) :
    List (List Char) × List (List Char) :=
  let (mine, others) := nestedLines indent ls
  if isEmptyLine first ∧ mine.all isEmptyLine ∧ others.head?.any isItemLine then
    let (more, others) := others.span fun l =>
      isEmptyLine l || indent < indentOf l || (indentOf l = indent && isItemLine l)
    (mine ++ more, others)
  else (mine, others)

/-- What stands behind a colon, dash or document mark, `ls` being the further lines that belong to it.
`nested` reads these lines on their own. -/
def readAfter? (nested : List (List Char) → Option Node) (first : List Char)
    (ls : List (List Char)) : Option Node :=
  match trimmedEnd (first.dropWhile isBlank) with
  | '|' :: sign => some (.scalar .block (String.ofList (blockText false sign ls)))
  | '>' :: sign => some (.scalar .block (String.ofList (blockText true sign ls)))
  | rest =>
    if isEmptyLine rest then nested ls
    else readInline? (joined (first :: ls))

mutual

/-- The node of lines that belong together: a list, a mapping, or a scalar. The number bounds the
calls that it takes. -/
def readBlock? : Nat → List (List Char) → Option Node
  | 0, _ => none
  | n + 1, ls =>
    match ls.dropWhile isEmptyLine with
    | [] => some .missing
    | l :: ls =>
      let indent := indentOf l
      if isTabIndented l then none
      else if isItemLine l then readList? n indent [] (l :: ls)
      else if (readKey? (l.drop indent)).isSome then readMapping? n indent [] (l :: ls)
      else readInline? (joined (l :: ls))

/-- The items, behind those in `items`, of a list whose dashes are moved in by `indent`. -/
def readList? : Nat → Nat → List Node → List (List Char) → Option Node
  | 0, _, _, _ => none
  | n + 1, indent, items, ls =>
    match ls.dropWhile isEmptyLine with
    | [] => some (.list items)
    | l :: ls =>
      if indentOf l = indent ∧ isItemLine l then do
        let content := (l.drop indent).tail
        let (mine, others) := nestedLines indent ls
        let opensBlock := isItemLine content || (readKey? (content.dropWhile isBlank)).isSome
        let item ←
          if opensBlock then readBlock? n ((List.replicate (indent + 1) ' ' ++ content) :: mine)
          else readAfter? (readBlock? n) content mine
        readList? n indent (items ++ [item]) others
      else none

/-- The fields, behind those in `fields`, of a mapping whose keys are moved in by `indent`. -/
def readMapping? : Nat → Nat → List (Node × Node) → List (List Char) → Option Node
  | 0, _, _, _ => none
  | n + 1, indent, fields, ls =>
    match ls.dropWhile isEmptyLine with
    | [] => some (.map fields)
    | l :: ls =>
      if indentOf l = indent ∧ ¬ isTabIndented l then do
        let (key, first) ← readKey? (l.drop indent)
        let (mine, others) := valueLines indent first ls
        let value ← readAfter? (readBlock? n) first mine
        readMapping? n indent (fields ++ [(key, value)]) others
      else none

end

/-- What a text holds. -/
inductive Content where
  /-- no document -/
  | nothing
  | node (n : Node)

/-- Whether a character may stand in a text at all. -/
def isAllowed (c : Char) : Bool :=
  isPrintable c || c = '\t' || c = '\r' || c = '\u0085' || c = '\ufeff'

/-- Reads a text of at most one document. -/
def read? (text : String) : Option Content := do
  let cs := text.toList
  guard (cs.all isAllowed)
  let calls := 2 * cs.length + 3
  let ls := (lines (if cs.head? = some '\ufeff' then cs.tail else cs)).dropWhile isEmptyLine
  let isEnd (l : List Char) : Bool := hasMark ['-', '-', '-'] l || hasMark ['.', '.', '.'] l
  let only (ls : List (List Char)) : Bool :=
    ls.all fun l => isEmptyLine l || hasMark ['.', '.', '.'] l
  match ls with
  | [] => some .nothing
  | l :: rest =>
    if hasMark ['-', '-', '-'] l then do
      let (body, others) := rest.span fun l => !isEnd l
      guard (only others)
      (readAfter? (readBlock? calls) (l.drop 3) body).map .node
    else do
      let (body, others) := ls.span fun l => !isEnd l
      guard (l.head? ≠ some '%' ∧ only others)
      if body.isEmpty then some .nothing else (readBlock? calls body).map .node

end Grammarian.Yaml
