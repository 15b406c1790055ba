/-!
# Options of a parser
-/

namespace Grammarian

/-- What a parser can be told besides its rules. -/
structure Options where
  /-- whether internal rules stay in the tree -/
  keepUpperRules : Bool := false
  /-- the rule to skip where a rule allows white space -/
  whitespaceRule : String := "WS"
  /-- how deep rules may nest; no limit when absent -/
  maxDepth : Option Nat := none
  deriving DecidableEq, Inhabited

end Grammarian
