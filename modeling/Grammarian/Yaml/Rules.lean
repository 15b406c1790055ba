import Grammarian.Grammar.Rule
import Grammarian.Yaml.Scalar

/-!
# Rules as YAML

The layout of rules in YAML: a field a line, and a symbol as a scalar with a tag that tells its kind. The
items of a list stand at the indentation of the key they belong to.
-/

namespace Grammarian.Yaml

/-- A symbol: its tag and its text. -/
def symbolLine (s : Symbol) : String :=
  match s with
  | .literal value => "!literal " ++ scalarLine 6 value
  | .pattern p => "!pattern " ++ scalarLine 6 p.source
  | .reference r => "!reference " ++ scalarLine 6 r.text

/-- An alternative as an item of a list. -/
def alternativeLines (a : List Symbol) : String :=
  match a with
  | [] => "  - []\n"
  | s :: more =>
    "  - - " ++ symbolLine s ++ String.join (more.map fun s => "    - " ++ symbolLine s)

/-- A field that is left out when there is nothing to tell. -/
def optionalLine (key : String) (value : Option String) : String :=
  match value with
  | some v => "  " ++ key ++ ": " ++ v
  | none => ""

/-- A flag, which is left out when it is not set. -/
def flagLine (key : String) (b : Bool) : String := if b then "  " ++ key ++ ": true\n" else ""

def ruleLines (r : Rule) : String :=
  "- name: " ++ scalarLine 4 r.name
    ++ (if r.alternatives.isEmpty then "  alternatives: []\n"
        else "  alternatives:\n" ++ String.join (r.alternatives.map alternativeLines))
    ++ optionalLine "recover_to" (r.recoverTo.map (scalarLine 4))
    ++ flagLine "fragment" r.fragment
    ++ optionalLine "pin_at" (r.pinAt.map fun n => toString n ++ "\n")
    ++ optionalLine "implicit_whitespace"
        (r.implicitWhitespace.map fun b => if b then "true\n" else "false\n")
    ++ flagLine "collapse_single_child" r.collapseSingleChild

/-- Rules as a YAML text. -/
def rulesText (rules : List Rule) : String :=
  if rules.isEmpty then "[]\n" else String.join (rules.map ruleLines)

end Grammarian.Yaml
