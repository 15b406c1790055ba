import Grammarian.Command.Request
import Grammarian.Format.Registry
import Grammarian.Serial.Options
import Grammarian.Serial.Tree
import Grammarian.Tree.Drawing

/-!
# Answers

What the command line does. Files are read through a function, so that an answer depends on nothing
but the words of the command line and the texts of the files.
-/

namespace Grammarian.Command

/-- Why a file could not be read. -/
inductive FileError where
  | missing
  | directory
  | forbidden
  | notText

def FileError.message : FileError → String
  | missing => "No such file or directory (os error 2)"
  | directory => "Is a directory (os error 21)"
  | forbidden => "Permission denied (os error 13)"
  | notText => "stream did not contain valid UTF-8"

/-- The texts of files by name. -/
abbrev Files := String → Except FileError String

/-- What the program prints, and its exit code. -/
structure Answer where
  output : String := ""
  errors : String := ""
  code : Nat := 0
  deriving DecidableEq

namespace Answer

/-- Gives up with a message. -/
def failure (message : String) : Answer := { errors := message ++ "\n", code := 1 }

/-- The answer to words that make no request. -/
def misuse : Answer := { code := 2 }

/-- Puts lines before what is printed as errors. -/
def withTrace (lines : List String) (a : Answer) : Answer :=
  { a with errors := String.join (lines.map (· ++ "\n")) ++ a.errors }

end Answer

/-- A step that may give up. -/
abbrev Step (α : Type) := Except Answer α

def readFile (files : Files) (path : String) : Step String :=
  (files path).mapError fun e => .failure ("Error reading " ++ path ++ ": " ++ e.message)

def findDialect (name : String) : Step Dialect :=
  match Dialect.ofName? name with
  | some d => .ok d
  | none => .error (.failure ("Unknown dialect '" ++ name ++ "' (expected bnf, w3c or custom)"))

def grammarStep {α : Type} (r : Except GrammarFailure α) : Step α :=
  r.mapError fun e => .failure ("Grammar error: " ++ e.message)

def readOptions (files : Files) (r : ParseRequest) : Step Options := do
  let options ← match r.config with
    | none => .ok {}
    | some path =>
      match Options.ofText? (← readFile files path) with
      | some o => .ok o
      | none => .error (.failure "Invalid parser configuration: not a mapping of options")
  .ok (if r.keepUpperRules then { options with keepUpperRules := true } else options)

/-- A tree in one of the formats for trees. -/
def treeText (format : String) (t : Tree) : Step String :=
  if format = "treeviz" then .ok t.root.draw
  else if format = "json" then .ok (Json.text t.toValue)
  else .error (.failure
    ("Unknown tree format '" ++ format ++ "' (expected treeviz or json)"))

/-- A tree as the program prints it, with the errors in it. -/
def showTree (format : String) (t : Tree) : Step Answer := do
  let output ← treeText format t
  .ok
    { output
      errors := String.join (t.errors.map (·.display ++ "\n"))
      code := if t.errors.isEmpty then 0 else 1 }

/-- Runs the parser that a request is about and shows the tree. -/
def parseFile (r : ParseRequest) (p : Parser) (input : String) : Answer :=
  let run := p.run input r.rule
  let answer : Answer := match run.value with
    | .ok tree => match showTree r.format tree with
      | .ok a => a
      | .error a => a
    | .error e => .failure ("Parse failed: " ++ e.message)
  if r.trace then
    answer.withTrace ((run.events.filter fun e => !isInternalName e.rule).map Event.line)
  else answer

def formatLines (f : Format) : String := "  " ++ f.name ++ "\n    " ++ f.description ++ "\n"

/-- Carries out a request. -/
def steps (files : Files) : Request → Step Answer
  | .version => .ok { output := "ebnf 0.1.0\n" }
  | .listFormats => .ok
      { output := "Available rule formats:\n\n"
          ++ String.join (FormatRegistry.standard.formats.map formatLines) }
  | .compile grammar dialect format => do
    let source ← readFile files grammar
    let d ← findDialect dialect
    let rules ← grammarStep (d.rulesOf source)
    match FormatRegistry.standard.write rules format with
    | .ok output => .ok { output }
    | .error e => .error (.failure ("Format error: " ++ e.message))
  | .parse r => do
    let options ← readOptions files r
    let source ← readFile files r.grammar
    let d ← findDialect r.dialect
    let parser ← grammarStep (d.parserOf source options)
    let input ← readFile files r.input
    .ok (parseFile r parser input)

/-- The answer to the words of a command line. -/
def answer (files : Files) (words : List String) : Answer :=
  match Request.ofWords? words with
  | none => .misuse
  | some request =>
    match steps files request with
    | .ok a => a
    | .error a => a

end Grammarian.Command
