import Grammarian.Yaml.Scalar

/-!
# The lines of a YAML text

Lines, how far they are moved in, and the folding of a scalar that stands on several of them.
-/

namespace Grammarian.Yaml

def isBlank (c : Char) : Bool := c = ' ' || c = '\t'

/-- The text without blanks and breaks at its end. -/
def trimmedEnd (cs : List Char) : List Char := (cs.reverse.dropWhile isBlankOrBreak).reverse

/-- The lines of a text; a carriage return, a line feed or both end a line. -/
def lines : List Char → List (List Char)
  | [] => [[]]
  | '\r' :: '\n' :: r => [] :: lines r
  | '\n' :: r => [] :: lines r
  | '\r' :: r => [] :: lines r
  | c :: r =>
    match lines r with
    | l :: ls => (c :: l) :: ls
    | [] => [[c]]

/-- The lines as one text. -/
def joined (ls : List (List Char)) : List Char := ['\n'].intercalate ls

/-- Whether a line holds nothing but a comment, if anything. -/
def isEmptyLine (l : List Char) : Bool := (l.dropWhile isBlank).head?.all (· = '#')

/-- How far a line is moved in. -/
def indentOf (l : List Char) : Nat := (l.takeWhile (· = ' ')).length

/-- Whether a line is moved in by a tab, which is not allowed. -/
def isTabIndented (l : List Char) : Bool := (l.dropWhile (· = ' ')).head? = some '\t'

/-- Whether a line begins with a document mark. -/
def hasMark (mark l : List Char) : Bool :=
  mark.isPrefixOf l && (l.drop mark.length).head?.all isBlank

/-- Whether a line is an item of a list. -/
def isItemLine (l : List Char) : Bool :=
  match l.dropWhile (· = ' ') with
  | '-' :: r => r.head?.all isBlank
  | _ => false

/-- Further lines behind a text: a single break becomes a space, and of several the first is lost.
`broken` tells that line breaks stand at the end of the text already. -/
def foldOnto (text : List Char) (broken : Bool) : List (List Char) → List Char
  | [] => text
  | l :: ls =>
    if l.isEmpty ∧ ¬ ls.isEmpty then foldOnto (text ++ ['\n']) true ls
    else foldOnto (text ++ (if broken then [] else [' ']) ++ l) false ls

/-- Lines folded to one text. -/
def folded : List (List Char) → List Char
  | [] => []
  | l :: ls => foldOnto l false ls

/-- A scalar on several lines: blanks around its line breaks are dropped, and the lines are folded. -/
def foldedScalar (cs : List Char) : List Char :=
  match lines cs with
  | [] => []
  | [l] => l
  | l :: ls =>
    folded (trimmedEnd l :: (ls.dropLast.map trimmedEnd ++ [ls.getLast?.getD []]).map
      (·.dropWhile isBlank))

/-- The text of a block below a bar (or an angle bracket, when its lines are folded) and the sign
behind that: blank lines at its end are dropped, but for the break of the last line, unless the sign
is a plus, and with a minus that break is dropped as well. -/
def blockText (isFolded : Bool) (sign : List Char) (ls : List (List Char)) : List Char :=
  let indent := ((ls.filter fun l => !l.all (· = ' ')).head?.map indentOf).getD 0
  let body := ls.map (·.drop indent)
  let content := (body.reverse.dropWhile List.isEmpty).reverse
  let text := if isFolded then folded content else joined content
  let breaks :=
    if sign = ['-'] then 0
    else if sign = ['+'] then body.length - (if content.isEmpty then 1 else content.length - 1)
    else if content.isEmpty then 0 else 1
  text ++ List.replicate breaks '\n'

end Grammarian.Yaml
