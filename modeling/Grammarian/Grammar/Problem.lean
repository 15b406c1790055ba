/-!
# What can be wrong with a list of rules
-/

namespace Grammarian

/-- One fault of a list of rules. -/
inductive Problem where
  | duplicateRule (name : String)
  | emptyRule (name : String)
  | leftRecursion (name : String)
  /-- rules that reach each other through their first symbols, in a circle -/
  | indirectLeftRecursion (cycle : List String)
  | undefinedRule (rule reference : String)
  | missingWhitespaceRule (rule whitespace : String)
  | undefinedRecoveryTarget (rule target : String)
  /-- a phase that looks ahead and repeats -/
  | repeatedLookahead (rule symbol : String)
  | noEntryRule
  deriving DecidableEq

namespace Problem

def message : Problem → String
  | duplicateRule name => "Duplicated rule " ++ name
  | emptyRule name => "Missing rule content, rule: " ++ name
  | leftRecursion name => "Left recursion is not allowed, rule: " ++ name
  | indirectLeftRecursion cycle =>
    "Indirect left recursion is not allowed: " ++ " -> ".intercalate cycle ++ " -> "
      ++ cycle.headD ""
  | undefinedRule rule reference =>
    "Missing rule " ++ reference ++ " (referenced by " ++ rule ++ ")"
  | missingWhitespaceRule rule whitespace =>
    "Rule " ++ rule ++ " uses implicit whitespace but rule " ++ whitespace ++ " is not defined"
  | undefinedRecoveryTarget rule target =>
    "Missing recovery rule " ++ target ++ " (used by " ++ rule ++ ")"
  | repeatedLookahead rule symbol =>
    "Lookahead " ++ symbol ++ " cannot repeat, rule: " ++ rule
  | noEntryRule => "No rule can be used as entry point"

/-- The message for all problems of a list of rules. -/
def summary (problems : List Problem) : String :=
  "Invalid grammar (" ++ toString problems.length ++ " problems):\n"
    ++ String.join (problems.map fun p => "  " ++ p.message ++ "\n")

end Problem

end Grammarian
