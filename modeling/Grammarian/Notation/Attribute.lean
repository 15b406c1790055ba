import Grammarian.Notation.Failure

/-!
# Attributes

The names and values between braces that control how a production is parsed.
-/

namespace Grammarian.Notation

/-- Attributes in the order they are written, each name once. -/
abbrev Attributes := List (String × String)

namespace Attributes

def get? (attrs : Attributes) (name : String) : Option String :=
  (attrs.find? (·.1 = name)).map (·.2)

/-- Whether an attribute is set to `true`. -/
def flag (attrs : Attributes) (name : String) : Bool := attrs.get? name = some "true"

/-- Whether white space may stand between phases; nothing when no attribute tells. -/
def whitespace? (attrs : Attributes) : Option Bool := (attrs.get? "ws").map (· ≠ "explicit")

/-- The text of the first child of a kind. -/
def childText (n : Node) (kind : String) : String :=
  ((n.firstChildOf? kind).map (·.text)).getD ""

/-- Adds the attributes of the nodes given; a name may not come twice. -/
def addAll (attrs : Attributes) : List Node → Except GrammarFailure Attributes
  | [] => .ok attrs
  | n :: ns =>
    let name := childText n "NCName"
    if (attrs.get? name).isSome then .error (.duplicateAttribute name)
    else addAll (attrs ++ [(name, childText n "AttributeValue")]) ns

/-- The attributes among the children of a production, a group or a grammar. -/
def ofChildren (children : List Node) : Except GrammarFailure Attributes :=
  match children.find? (·.kind = "Attributes") with
  | some n => addAll [] (n.childrenOf "Attribute")
  | none => .ok []

end Attributes

/-- The largest phase number. -/
def maxPhaseNumber : Nat := 18446744073709551615

/-- Reads a phase number. -/
def phaseNumber? (text : String) : Option Nat :=
  let cs := text.toList
  if cs.isEmpty || !cs.all Text.isAsciiDigit then none
  else
    let n := cs.foldl (fun n c => 10 * n + (c.toNat - '0'.toNat)) 0
    if n ≤ maxPhaseNumber then some n else none

end Grammarian.Notation
