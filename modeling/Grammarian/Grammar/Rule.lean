import Grammarian.Grammar.Literal
import Grammarian.Grammar.Reference
import Grammarian.Pattern.Anchored

/-!
# Rules

A grammar is an ordered list of named rules. A rule holds ordered alternatives, and each alternative
is an ordered list of symbols, its phases. Names carry meaning:

    %Name          a helper, which never appears in a finished tree
    UPPER_SNAKE    an internal rule, left out of trees unless asked for
    EOF            the end of the input, which is no rule
-/

namespace Grammarian

/-- The reserved name for the end of the input. -/
def endOfInput : String := "EOF"

/-- Whether `name` names a helper rule. -/
def isHelperName (name : String) : Bool :=
  match name.toList with
  | '%' :: _ => true
  | _ => false

/-- Whether `name` names an internal rule: capitals, digits and underscores only. -/
def isInternalName (name : String) : Bool :=
  name ≠ "" && name.toList.all fun c => Text.isAsciiUpper c || Text.isAsciiDigit c || c = '_'

/-- One phase of an alternative. -/
inductive Symbol where
  /-- an exact text, given by its value; the empty one matches without consuming anything -/
  | literal (value : String)
  | pattern (p : Pattern)
  /-- a rule, the end of the input or a quoted literal, possibly with marks -/
  | reference (r : Reference)
  deriving DecidableEq, Inhabited

namespace Symbol

/-- Reads a symbol as grammars write it. A quoted text without marks is a literal; one with marks
stays a reference and keeps them. -/
def ofText (text : String) : Symbol :=
  let r := Reference.ofText text
  if r.isLiteral && r.isPlain then literal (Literal.decode r.name) else reference r

/-- The symbol for a pattern source known to be well formed. -/
def ofPattern (source : String) : Symbol := pattern (.ofSource source)

/-- The symbol as it is written. -/
def text : Symbol → String
  | literal value => Literal.quote value
  | pattern p => "/" ++ p.source ++ "/"
  | reference r => r.text

def reference? : Symbol → Option Reference
  | reference r => some r
  | _ => none

/-- The rule that the symbol refers to, if it refers to one. -/
def ruleName? (s : Symbol) : Option String :=
  match s with
  | reference r => if r.isLiteral then none else some r.name
  | _ => none

end Symbol

/-- A named production. -/
structure Rule where
  name : String
  alternatives : List (List Symbol)
  /-- the rule to resume at when a required phase fails -/
  recoverTo : Option String := none
  /-- whether the children take the place of the node -/
  fragment : Bool := false
  /-- the phase that commits the alternative, counted from one -/
  pinAt : Option Nat := none
  /-- whether white space may stand between the phases; nothing when the grammar does not say -/
  implicitWhitespace : Option Bool := none
  /-- whether a single child takes the place of the node -/
  collapseSingleChild : Bool := false
  deriving DecidableEq, Inhabited

namespace Rule

/-- Whether parsing may start at this rule when none is asked for. -/
def isEntryCandidate (r : Rule) : Bool := !r.fragment && !isHelperName r.name

/-- Whether white space is looked for between the phases. -/
def skipsWhitespace (r : Rule) : Bool := r.implicitWhitespace = some true

end Rule

end Grammarian
