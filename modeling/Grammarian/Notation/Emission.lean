import Grammarian.Notation.CharCode
import Grammarian.Notation.Literals
import Grammarian.Notation.Production

/-!
# Productions from rules

Writes rules as productions, one a line. Helper rules have no line of their own: they are written where
they are referred to, as a group. The W3C notation has no place for attributes, so it drops them and
keeps a recovery target as a comment.
-/

namespace Grammarian.Notation

/-- A rule that is a single terminal; its text needs no parentheses as a group. -/
def isLonely (r : Rule) : Bool :=
  match r.alternatives with
  | [[.literal _]] => true
  | [[.pattern _]] => true
  | _ => false

/-- The text of a pattern: a literal when it matches one character only, else its source with
character codes. -/
def patternText (p : Pattern) : String :=
  match singleChar? p.source.toList with
  | some c => Literal.quote (String.ofList [c])
  | none => String.ofList (CharCode.restore p.source.toList)

/-- The mark before a name. -/
def leadText (style : Style) (r : Reference) : String :=
  if r.pin then (if style = .attributed then "~" else "") else r.leadMark

/-- The helper of a name; of several rules with it the last counts. -/
def helperOf? (rules : List Rule) (name : String) : Option Rule :=
  (rules.filter fun r => isHelperName r.name && r.name = name).getLast?

/-- The alternatives of a rule, given how a symbol is written. -/
def alternativesText (symbolText : Symbol → String) (r : Rule) : String :=
  " | ".intercalate (r.alternatives.map fun a => " ".intercalate (a.map symbolText))

/-- A symbol as productions write it, helpers nested up to `depth` levels. -/
def symbolText (style : Style) (rules : List Rule) : (depth : Nat) → Symbol → String
  | _, .literal value => Literal.quote value
  | _, .pattern p => patternText p
  | depth, .reference r =>
    let body := match helperOf? rules r.name, depth with
      | some h, depth + 1 =>
        let text := alternativesText (symbolText style rules depth) h
        if isLonely h then text else "(" ++ text ++ ")"
      | some _, 0 => ""
      | none, _ => r.name
    leadText style r ++ body ++ r.tailMark

/-- The right side of a production. As no helper is nested in itself, the number of rules bounds the
nesting. -/
def bodyText (style : Style) (rules : List Rule) (r : Rule) : String :=
  alternativesText (symbolText style rules rules.length) r

/-- The attributes that the attributed notation writes behind a production. -/
def attributeTexts (r : Rule) : List String :=
  (r.pinAt.map fun n => "pin=" ++ toString n).toList
    ++ (r.recoverTo.map ("recoverUntil=" ++ ·)).toList
    ++ (r.implicitWhitespace.map fun b => if b then "ws=implicit" else "ws=explicit").toList
    ++ (if r.fragment then ["fragment=true"] else [])
    ++ (if r.collapseSingleChild then ["simplifyWhenOneChildren=true"] else [])

/-- What stands behind the right side of a production. -/
def trailerText (style : Style) (r : Rule) : String :=
  match style with
  | .w3c => match r.recoverTo with
    | some target => " /* \x7b recoverUntil=" ++ target ++ " \x7d */"
    | none => ""
  | .attributed => match attributeTexts r with
    | [] => ""
    | texts => " \x7b " ++ ", ".intercalate texts ++ " \x7d"

/-- A rule as a line. -/
def ruleText (style : Style) (rules : List Rule) (r : Rule) : String :=
  r.name ++ " ::= " ++ bodyText style rules r ++ trailerText style r ++ "\n"

/-- The rules as a grammar text. -/
def grammarText (style : Style) (rules : List Rule) : String :=
  String.join ((rules.filter fun r => !isHelperName r.name).map (ruleText style rules))

end Grammarian.Notation
