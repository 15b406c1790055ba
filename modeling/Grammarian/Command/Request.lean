import Grammarian.Command.Arguments

/-!
# Requests

What the command line can be asked to do.
-/

namespace Grammarian.Command

/-- What to do to parse a file. -/
structure ParseRequest where
  grammar : String
  input : String
  dialect : String
  /-- the rule to start from -/
  rule : Option String
  /-- the format of the tree -/
  format : String
  /-- a file with options -/
  config : Option String
  keepUpperRules : Bool
  trace : Bool

/-- What the command line asks for. Files are given by name, and so are dialects and formats. -/
inductive Request where
  | version
  | listFormats
  /-- compile a grammar and write its rules -/
  | compile (grammar dialect format : String)
  | parse (r : ParseRequest)

/-- The dialect of a grammar when none is given. -/
def usualDialect : String := "custom"

def compileUsage : Usage where
  valueCount := 1
  options := [("dialect", 'd'), ("format", 'f')]
  flags := []

def parseUsage : Usage where
  valueCount := 2
  options := [("dialect", 'd'), ("rule", 'r'), ("format", 'f'), ("config", 'c')]
  flags := ["keep-upper-rules", "trace"]

def listUsage : Usage where
  valueCount := 0
  options := []
  flags := []

def compileRequest? (a : Arguments) : Option Request :=
  match a.values with
  | [grammar] =>
    some (.compile grammar ((a.option? "dialect").getD usualDialect)
      ((a.option? "format").getD "ebnf"))
  | _ => none

def parseRequest? (a : Arguments) : Option Request :=
  match a.values with
  | [grammar, input] =>
    some (.parse
      { grammar, input
        dialect := (a.option? "dialect").getD usualDialect
        rule := a.option? "rule"
        format := (a.option? "format").getD "treeviz"
        config := a.option? "config"
        keepUpperRules := a.flag "keep-upper-rules"
        trace := a.flag "trace" })
  | _ => none

/-- The request that the words of a command line make; nothing when they make none. -/
def Request.ofWords? : List String → Option Request
  | [] => none
  | word :: words =>
    if word = "--version" ∨ ['-', 'V'].isPrefixOf word.toList then some .version
    else if word = "compile" then (compileUsage.read? words).bind compileRequest?
    else if word = "parse" then (parseUsage.read? words).bind parseRequest?
    else if word = "list-formats" then (listUsage.read? words).map fun _ => .listFormats
    else none

end Grammarian.Command
