import Grammarian.Grammar.Rule
import Grammarian.Serial.Value

/-!
# Rules as values

A rule is an object with its name and alternatives; what has its usual value is left out. A symbol is
an object with a single key that tells its kind. References are written with their marks.
-/

namespace Grammarian

namespace Symbol

def toValue : Symbol → Value
  | literal value => .object [("literal", .string value)]
  | pattern p => .object [("pattern", .string p.source)]
  | reference r => .object [("reference", .string r.text)]

/-- The symbol that a value stands for. -/
def ofValue? : Value → Option Symbol
  | .object [("literal", .string value)] => some (literal value)
  | .object [("pattern", .string source)] => (Pattern.compile source).toOption.map pattern
  | .object [("reference", .string text)] => some (reference (.ofText text))
  | _ => none

end Symbol

namespace Rule

/-- A field that is left out when there is nothing to tell. -/
def optionalField (key : String) (v : Option Value) : List (String × Value) :=
  v.toList.map fun v => (key, v)

/-- A flag, which is left out when it is not set. -/
def flagField (key : String) (b : Bool) : List (String × Value) :=
  if b then [(key, .bool true)] else []

def toValue (r : Rule) : Value :=
  .object <|
    [("name", .string r.name),
      ("alternatives", .list (r.alternatives.map fun a => .list (a.map Symbol.toValue)))]
    ++ optionalField "recover_to" (r.recoverTo.map .string)
    ++ flagField "fragment" r.fragment
    ++ optionalField "pin_at" (r.pinAt.map .nat)
    ++ optionalField "implicit_whitespace" (r.implicitWhitespace.map .bool)
    ++ flagField "collapse_single_child" r.collapseSingleChild

/-- The largest number that a field holds. -/
def maxNumber : Nat := 18446744073709551615

/-- Reads a list, item by item. -/
def readList? {α : Type} (read : Value → Option α) : Value → Option (List α)
  | .list items => items.mapM read
  | _ => none

def readString? : Value → Option String
  | .string s => some s
  | _ => none

def readBool? : Value → Option Bool
  | .bool b => some b
  | _ => none

def readNat? : Value → Option Nat
  | .int n => if 0 ≤ n ∧ n ≤ maxNumber then some n.toNat else none
  | _ => none

/-- Reads a field that may be `null`, which stands for nothing. -/
def readNullable? {α : Type} (read : Value → Option α) : Value → Option (Option α)
  | .null => some none
  | v => (read v).map some

/-- Reads a field that may be missing. -/
def readOr? {α : Type} (read : Value → Option α) (missing : α) : Option Value → Option α
  | none => some missing
  | some v => read v

/-- The rule whose fields `field` looks up. -/
def ofFields? (field : String → Option Value) : Option Rule := do
  let name ← readString? (← field "name")
  let alternatives ← readList? (readList? Symbol.ofValue?) (← field "alternatives")
  let recoverTo ← readOr? (readNullable? readString?) none (field "recover_to")
  let fragment ← readOr? readBool? false (field "fragment")
  let pinAt ← readOr? (readNullable? readNat?) none (field "pin_at")
  let implicitWhitespace ←
    readOr? (readNullable? readBool?) none (field "implicit_whitespace")
  let collapseSingleChild ← readOr? readBool? false (field "collapse_single_child")
  some { name, alternatives, recoverTo, fragment, pinAt, implicitWhitespace, collapseSingleChild }

/-- The names of the fields, in the order in which a list of bare values gives them. -/
def fieldNames : List String :=
  ["name", "alternatives", "recover_to", "fragment", "pin_at", "implicit_whitespace",
    "collapse_single_child"]

/-- The rule that a value stands for: an object, whose unknown fields are ignored, or a list of the
values of the fields in order. -/
def ofValue? : Value → Option Rule
  | .object fields => ofFields? (Value.field? fields)
  | .list items =>
    if items.length ≤ fieldNames.length then
      ofFields? (Value.field? (fieldNames.zip items))
    else none
  | _ => none

end Rule

/-- Rules as a value. -/
def rulesToValue (rules : List Rule) : Value := .list (rules.map Rule.toValue)

/-- The rules that a value stands for. -/
def rulesOfValue? : Value → Option (List Rule) := Rule.readList? Rule.ofValue?

end Grammarian
