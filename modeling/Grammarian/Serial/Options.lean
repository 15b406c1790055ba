import Grammarian.Parse.Options
import Grammarian.Serial.Value
import Grammarian.Yaml.Document

/-!
# Options as text

Options are written as a YAML (or JSON) mapping, where a key that is left out keeps its usual value:

    keep-upper-rules: true
    whitespace-rule: WS
    max-depth: 512

The bare values in this order, as a list, are understood as well.
-/

namespace Grammarian

namespace Options

def toValue (o : Options) : Value :=
  .object
    [("keep-upper-rules", .bool o.keepUpperRules), ("whitespace-rule", .string o.whitespaceRule),
      ("max-depth", (o.maxDepth.map Value.nat).getD .null)]

/-- The largest depth that can be asked for. -/
def depthLimit : Nat := 18446744073709551615

def flagOf? : Yaml.Node → Option Bool
  | .scalar .plain s => Yaml.bool? s
  | _ => none

/-- Any scalar is a name, even one that looks like a number. -/
def nameOf? : Yaml.Node → Option String
  | .scalar _ s => some s
  | _ => none

/-- A depth, or nothing for a value that is null or left out. -/
def depthOf? : Yaml.Node → Option (Option Nat)
  | .scalar .plain s =>
    if s = "" ∨ Yaml.isNull s then some none
    else match Yaml.natural? s.toList with
      | some n => if n ≤ depthLimit then some (some n) else none
      | none => none
  | _ => none

/-- The keys of the options, in the order in which a list gives their values. -/
def keys : List String := ["keep-upper-rules", "whitespace-rule", "max-depth"]

/-- Sets one option; a key of no option changes nothing. -/
def set? (o : Options) (key : String) (v : Yaml.Node) : Option Options :=
  if key = "keep-upper-rules" then (flagOf? v).map fun b => { o with keepUpperRules := b }
  else if key = "whitespace-rule" then (nameOf? v).map fun s => { o with whitespaceRule := s }
  else if key = "max-depth" then (depthOf? v).map fun d => { o with maxDepth := d }
  else some o

/-- Sets options one after the other; `done` holds the keys before, none of which may come again. -/
def setAll? (o : Options) (done : List String) : List (Yaml.Node × Yaml.Node) → Option Options
  | [] => some o
  | (k, v) :: fields => do
    let key ← nameOf? k
    if key ∈ done ∧ key ∈ keys then none
    else (← o.set? key v).setAll? (key :: done) fields

/-- The options that a node stands for. -/
def ofNode? : Yaml.Node → Option Options
  | .map fields => setAll? {} [] fields
  | .list items =>
    if items.length ≤ keys.length then
      setAll? {} [] ((keys.map (.scalar .plain)).zip items)
    else none
  | .scalar .plain "" => some {}
  | .scalar _ _ => none

/-- The options that a text stands for; a blank one stands for the usual options. -/
def ofText? (text : String) : Option Options :=
  if text.toList.all Text.isSpace then some {}
  else match Yaml.read? text with
    | some (.node n) => ofNode? n
    | some .nothing => some {}
    | none => none

end Options

end Grammarian
