import Grammarian.Parse.Parser

/-!
# Failures of grammar text

Why a grammar text gives no rules or no parser.
-/

namespace Grammarian

/-- Why the value of an attribute is refused. -/
inductive AttributeFault where
  /-- the attribute counts phases, and the production has several alternatives -/
  | manyAlternatives
  | noPhaseNumber (value : String)
  deriving DecidableEq

def AttributeFault.message : AttributeFault → String
  | manyAlternatives => "only single-alternative productions support it"
  | noPhaseNumber value => Text.visibleString value ++ " is not a phase number"

/-- Why a grammar text is refused. -/
inductive GrammarFailure where
  /-- the text is no grammar at all -/
  | notResolved (failure : ParseFailure)
  /-- the first error in the text -/
  | illFormed (error : ParseError)
  /-- an item taken away from another, which has no rule -/
  | difference (rule : String)
  | duplicateAttribute (name : String)
  | invalidAttribute (rule attr : String) (fault : AttributeFault)
  | pattern (error : PatternError)
  | construction (problems : List Problem)
  deriving DecidableEq

namespace GrammarFailure

def message : GrammarFailure → String
  | notResolved failure => "Could not parse grammar: " ++ failure.message
  | illFormed error => "Grammar syntax error: " ++ error.display
  | difference rule => "Difference not supported, rule: " ++ rule
  | duplicateAttribute name => "Duplicated attribute " ++ name
  | invalidAttribute rule attr fault =>
    "Invalid attribute " ++ attr ++ " on rule " ++ rule ++ ": " ++ fault.message
  | pattern error => error.message
  | construction problems => Problem.summary problems

/-- The message of the failure underneath, if there is one. -/
def cause? : GrammarFailure → Option String
  | notResolved failure => some failure.message
  | illFormed error => some error.display
  | pattern error => some error.message
  | construction problems => some (Problem.summary problems)
  | _ => none

end GrammarFailure

/-- The tree of a grammar text, read with the rules of its notation. A text with any error is refused. -/
def readGrammarTree (grammarParser : Except (List Problem) Parser) (source : String) :
    Except GrammarFailure Node :=
  match grammarParser with
  | .error problems => .error (.construction problems)
  | .ok p =>
    match p.parse source none with
    | .error failure => .error (.notResolved failure)
    | .ok tree =>
      match tree.errors with
      | [] => .ok tree.root
      | error :: _ => .error (.illFormed error)

end Grammarian
