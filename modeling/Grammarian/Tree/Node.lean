import Grammarian.Text.Visible

/-!
# Parse trees

A finished tree: nodes named after the rules that matched, with their text and span, and the errors
that parsing went past. Spans count bytes of the input; the start is included and the end is not.
-/

namespace Grammarian

/-- The kind of the nodes that stand for input no rule accounts for. -/
def syntaxError : String := "SyntaxError"

/-- Why a parse error was recorded. -/
inductive ParseError.Cause where
  /-- a committed alternative could not go on without `name` -/
  | expected (name : String)
  /-- input was skipped to resume `rule` -/
  | unexpectedInput (rule : String)
  /-- input is left after a node of kind `root` -/
  | trailingInput (root : String)
  deriving DecidableEq

/-- An error that parsing went past. -/
structure ParseError where
  cause : ParseError.Cause
  /-- the input the error is about -/
  text : String
  start : Nat
  stop : Nat
  deriving DecidableEq

namespace ParseError

def message (e : ParseError) : String :=
  match e.cause with
  | .expected name =>
    if e.text = "" then "Unexpected end of input. Missing " ++ name
    else "Unexpected end of input. Expecting " ++ name ++ " Got: " ++ e.text
  | .unexpectedInput rule =>
    "Unexpected input: " ++ Text.visibleString e.text ++ " Expecting: " ++ rule
  | .trailingInput _ => "Unexpected end of input: \n" ++ e.text

/-- The rule or terminal that was expected, when one was. -/
def expected? (e : ParseError) : Option String :=
  match e.cause with
  | .expected name => some name
  | .unexpectedInput rule => some rule
  | .trailingInput _ => none

/-- The kind of the node that the error belongs to. -/
def nodeKind (e : ParseError) : String :=
  match e.cause with
  | .expected _ => syntaxError
  | .unexpectedInput _ => syntaxError
  | .trailingInput root => root

/-- The name of the cause in written trees. -/
def kindName (e : ParseError) : String :=
  match e.cause with
  | .expected _ => "expected"
  | .unexpectedInput _ => "unexpected-input"
  | .trailingInput _ => "trailing-input"

/-- The message with the span it is about. -/
def display (e : ParseError) : String :=
  e.message ++ " (" ++ toString e.start ++ ".." ++ toString e.stop ++ ")"

end ParseError

/-- A node of a finished tree. -/
structure Node where
  kind : String
  text : String
  start : Nat
  stop : Nat
  children : List Node
  deriving Inhabited

/-- The result of a parse: the root, the errors in the order of the input, and the input left over. -/
structure Tree where
  root : Node
  errors : List ParseError
  rest : String

/-- The way from a root to a node: which child to take at each level. -/
abbrev NodePath := List Nat

namespace NodePath

/-- The path one level up; nothing for the root. -/
def parent? (p : NodePath) : Option NodePath :=
  if p.isEmpty then none else some p.dropLast

def text (p : NodePath) : String := "/" ++ "/".intercalate (p.map toString)

end NodePath

namespace Node

def isSyntaxError (n : Node) : Bool := n.kind = syntaxError

/-- The children of a kind. -/
def childrenOf (n : Node) (kind : String) : List Node := n.children.filter (·.kind = kind)

def firstChildOf? (n : Node) (kind : String) : Option Node := n.children.find? (·.kind = kind)

mutual

/-- The first node of a kind, a node coming before its children. -/
def find? (kind : String) : Node → Option Node
  | ⟨k, text, start, stop, children⟩ =>
    if k = kind then some ⟨k, text, start, stop, children⟩ else findAmong? kind children

def findAmong? (kind : String) : List Node → Option Node
  | [] => none
  | n :: ns =>
    match find? kind n with
    | some found => some found
    | none => findAmong? kind ns

end

mutual

/-- Every node with its path, a node coming before its children; `path` leads to the node itself. -/
def walkFrom (path : NodePath) : Node → List (NodePath × Node)
  | ⟨k, text, start, stop, children⟩ =>
    (path, ⟨k, text, start, stop, children⟩) :: walkChildren path 0 children

/-- The nodes under `path`, from child `index` on. -/
def walkChildren (path : NodePath) (index : Nat) : List Node → List (NodePath × Node)
  | [] => []
  | n :: ns => walkFrom (path ++ [index]) n ++ walkChildren path (index + 1) ns

end

/-- Every node with its path, in the order of the input and a node before its children. -/
def walk (n : Node) : List (NodePath × Node) := walkFrom [] n

/-- The node at a path. -/
def at? (n : Node) : NodePath → Option Node
  | [] => some n
  | i :: path =>
    match n.children[i]? with
    | some child => child.at? path
    | none => none

/-- The parent of the node at a path. -/
def parentOf? (n : Node) (p : NodePath) : Option Node := p.parent?.bind n.at?

end Node

end Grammarian
