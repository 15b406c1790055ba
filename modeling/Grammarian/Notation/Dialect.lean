import Grammarian.Notation.Attributed
import Grammarian.Notation.Bnf
import Grammarian.Notation.Emission
import Grammarian.Notation.W3c

/-!
# Dialects

The notations that grammars can be written in. Each reads a grammar text into rules with the help of
rules of its own; those with productions can also write rules down.
-/

namespace Grammarian

/-- A notation for grammars. -/
inductive Dialect where
  | bnf
  | w3c
  /-- W3C with attributes -/
  | custom
  deriving DecidableEq

namespace Dialect

def all : List Dialect := [bnf, w3c, custom]

def name : Dialect → String
  | bnf => "bnf"
  | w3c => "w3c"
  | custom => "custom"

def ofName? (name : String) : Option Dialect := all.find? (·.name = name)

/-- The rules that read grammars of this dialect. -/
def grammarRules : Dialect → List Rule
  | bnf => Notation.bnfRules
  | w3c => Notation.w3cRules
  | custom => Notation.attributedRules

/-- The rules that a grammar text stands for. They are not checked. -/
def rulesOf (d : Dialect) (source : String) : Except GrammarFailure (List Rule) :=
  match d with
  | bnf => (readGrammarTree Notation.bnfParser source).map Notation.bnfRulesOf
  | w3c => (readGrammarTree Notation.w3cParser source).bind (Notation.rulesOf .w3c)
  | custom => (readGrammarTree Notation.attributedParser source).bind (Notation.rulesOf .attributed)

/-- The parser for a grammar text. -/
def parserOf (d : Dialect) (source : String) (options : Options) : Except GrammarFailure Parser :=
  (d.rulesOf source).bind fun rules => (Parser.build rules options).mapError .construction

/-- Rules as a grammar text, in the dialects that can be written. -/
def emit? (d : Dialect) (rules : List Rule) : Option String :=
  match d with
  | bnf => none
  | w3c => some (Notation.grammarText .w3c rules)
  | custom => some (Notation.grammarText .attributed rules)

end Dialect

end Grammarian
