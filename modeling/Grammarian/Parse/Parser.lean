import Grammarian.Parse.Finish
import Grammarian.Parse.Matching

/-!
# Parsers

A parser holds a table and options. A parse ends with a tree, which may carry errors that parsing went
past, or with a failure when the rule matches no front part of the input at all.
-/

namespace Grammarian

/-- Why a parse gave no tree. -/
inductive ParseFailure where
  | notResolved (rule : String)
  | unknownRule (name : String)
  deriving DecidableEq

def ParseFailure.message : ParseFailure → String
  | notResolved rule => "Input did not resolve as " ++ rule
  | unknownRule name => "Unknown rule " ++ name

structure Parser where
  table : Table
  options : Options

namespace Parser

/-- The parser for a list of rules. -/
def build (rules : List Rule) (options : Options) : Except (List Problem) Parser :=
  match Table.build rules options.whitespaceRule with
  | .ok table => .ok ⟨table, options⟩
  | .error problems => .error problems

/-- Parses `input` from the rule `target`, or from the first rule where parsing may start. -/
def run (p : Parser) (input : String) (target : Option String) :
    Traced (Except ParseFailure Tree) :=
  let name := target.getD ((p.table.start?.map (·.name)).getD "")
  if p.table.contains name then
    let r := p.table.matchRule p.options.maxDepth name input.toList
    match r.value with
    | some m => ⟨.ok (m.finish input.toList p.options), r.events⟩
    | none => ⟨.error (.notResolved name), r.events⟩
  else ⟨.error (.unknownRule name), []⟩

/-- The outcome of a parse without its trace. -/
def parse (p : Parser) (input : String) (target : Option String) : Except ParseFailure Tree :=
  (p.run input target).value

/-- A short account of the parser: the number of its rules and its options. -/
def describe (p : Parser) : String :=
  let depth := match p.options.maxDepth with
    | some n => "Some(" ++ toString n ++ ")"
    | none => "None"
  "Parser \x7b rules: " ++ toString p.table.entries.length
    ++ ", options: ParserOptions \x7b keep_upper_rules: " ++ toString p.options.keepUpperRules
    ++ ", whitespace_rule: " ++ Text.visibleString p.options.whitespaceRule
    ++ ", max_depth: " ++ depth ++ " \x7d \x7d"

end Parser

end Grammarian
