import Grammarian.Grammar.Rule
import Grammarian.Tree.Node

/-!
# Drawings of trees

One line a node, with connectors that show the nesting:

    ⧉ Pair 0..5 "ab,cd"
    ├─ • Word 0..2 "ab"
    └─ ✗ SyntaxError 3..5 "cd"

A line gives an icon, the kind, the span and the beginning of the text in visible form.
-/

namespace Grammarian.Node

/-- The icon of a kind. -/
def icon (kind : String) : String :=
  if kind = syntaxError then "✗" else if kind = endOfInput then "∎" else "•"

/-- The most characters of text, quotation marks and escapes included, that a line shows. -/
def labelLength : Nat := 30

/-- At most `labelLength` characters, with dots in place of those left out. -/
def shortened (cs : List Char) : List Char :=
  if labelLength < cs.length then cs.take labelLength ++ ['.', '.', '.'] else cs

/-- What a line tells of a node. -/
def label (n : Node) : String :=
  n.kind ++ " " ++ toString n.start ++ ".." ++ toString n.stop ++ " "
    ++ String.ofList (shortened (Text.visible n.text.toList))

/-- What stands before the icon of a node, after the margin of its parent. -/
def connector (isLast : Bool) : String := if isLast then "└─" else "├─"

/-- The margin for the children of a node. -/
def marginUnder (margin : String) (isLast : Bool) : String :=
  margin ++ (if isLast then "  " else "│ ")

mutual

/-- The lines of a node below the root, and of those under it. -/
def drawing (margin : String) (isLast : Bool) : Node → String
  | ⟨kind, text, start, stop, children⟩ =>
    margin ++ connector isLast ++ " " ++ icon kind ++ " "
      ++ label ⟨kind, text, start, stop, children⟩ ++ "\n"
      ++ drawings (marginUnder margin isLast) children

/-- The lines of the children of one node. -/
def drawings (margin : String) : List Node → String
  | [] => ""
  | n :: ns => drawing margin ns.isEmpty n ++ drawings margin ns

end

/-- The tree under a root as lines of text. -/
def draw (n : Node) : String := "⧉ " ++ n.label ++ "\n" ++ drawings "" n.children

end Grammarian.Node
