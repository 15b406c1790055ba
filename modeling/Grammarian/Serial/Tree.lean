import Grammarian.Serial.Value
import Grammarian.Tree.Node

/-!
# Trees as values

A node is an object with kind, text and span, and its children if it has any. The root also holds the
errors and the input left over, when there are any.
-/

namespace Grammarian

def ParseError.toValue (e : ParseError) : Value :=
  .object <|
    [("kind", .string e.kindName), ("message", .string e.message)]
    ++ (e.expected?.toList.map fun name => ("expected", .string name))
    ++ [("token_kind", .string e.nodeKind), ("text", .string e.text), ("start", .nat e.start),
      ("end", .nat e.stop)]

namespace Node

mutual

/-- The fields of a node. -/
def fields : Node → List (String × Value)
  | ⟨kind, text, start, stop, children⟩ =>
    [("kind", .string kind), ("text", .string text), ("start", .nat start), ("end", .nat stop)]
    ++ (if children.isEmpty then [] else [("children", .list (valuesOf children))])

/-- The values of several nodes. -/
def valuesOf : List Node → List Value
  | [] => []
  | n :: ns => .object n.fields :: valuesOf ns

end

end Node

def Tree.toValue (t : Tree) : Value :=
  .object <| t.root.fields
    ++ (if t.errors.isEmpty then [] else [("errors", .list (t.errors.map ParseError.toValue))])
    ++ (if t.rest = "" then [] else [("rest", .string t.rest)])

end Grammarian
