import Grammarian.Grammar.Cycle
import Grammarian.Grammar.Problem
import Grammarian.Grammar.Rule

/-!
# Rule tables

A table holds the rules of a grammar that is fit for parsing, with every symbol resolved to what it
matches. `Table.build` checks a list of rules and either gives the table or every problem it found.
-/

namespace Grammarian

/-- What a phase matches. -/
inductive Target where
  | rule (name : String)
  | literal (value : List Char)
  | pattern (p : Pattern)
  | endOfInput

/-- A symbol with its marks and what it matches. -/
structure Phase where
  reference : Reference
  target : Target

namespace Symbol

/-- The name and marks that a symbol goes by in messages. -/
def asReference : Symbol → Reference
  | literal value => .plain (Literal.quote value)
  | pattern p => .plain p.source
  | reference r => r

/-- What a symbol matches. -/
def target : Symbol → Target
  | literal value => .literal value.toList
  | pattern p => .pattern p
  | reference r =>
    if r.name = Grammarian.endOfInput then .endOfInput
    else if r.isLiteral then .literal (Literal.decode r.name).toList
    else .rule r.name

def phase (s : Symbol) : Phase := ⟨s.asReference, s.target⟩

/-- The rule that has to be declared for the symbol to mean anything. -/
def needs? (s : Symbol) : Option String :=
  match s.target with
  | .rule name => some name
  | _ => none

/-- Whether every rule the symbol needs is among the `declared` ones. -/
def isResolvedBy (declared : List String) (s : Symbol) : Bool :=
  s.needs?.all declared.contains

/-- The problems of a symbol of the rule `owner`. -/
def problems (declared : List String) (owner : String) (s : Symbol) : List Problem :=
  if s.isResolvedBy declared then
    let r := s.asReference
    if r.isLookahead && r.repeats then [.repeatedLookahead owner r.text] else []
  else s.needs?.toList.map (.undefinedRule owner)

end Symbol

namespace Rule

/-- The problems of one rule: those of its own form first, then those of its symbols. -/
def problems (declared : List String) (whitespace : String) (r : Rule) : List Problem :=
  let empty := if r.alternatives.all List.isEmpty then [Problem.emptyRule r.name] else []
  let selfFirst := r.alternatives.filter fun a => a.head?.bind Symbol.ruleName? = some r.name
  let noWhitespace :=
    if r.skipsWhitespace && !declared.contains whitespace then
      [Problem.missingWhitespaceRule r.name whitespace]
    else []
  let noTarget := (r.recoverTo.toList.filter fun t => !declared.contains t).map
    (.undefinedRecoveryTarget r.name)
  empty ++ selfFirst.map (fun _ => .leftRecursion r.name) ++ noWhitespace ++ noTarget
    ++ r.alternatives.flatten.flatMap (Symbol.problems declared r.name)

/-- The rules that an alternative begins with, symbols that need an undeclared rule left out. -/
def firstRules (declared : List String) (r : Rule) : List String :=
  r.alternatives.filterMap fun a =>
    (a.filter (Symbol.isResolvedBy declared)).head?.bind Symbol.needs?

/-- The rule as a table keeps it: the white-space rule never skips white space itself. -/
def settled (whitespace : String) (r : Rule) : Rule :=
  if r.name = whitespace then { r with implicitWhitespace := some false } else r

def phases (r : Rule) : List (List Phase) := r.alternatives.map (·.map Symbol.phase)

end Rule

/-- A rule and its resolved alternatives. -/
structure Table.Entry where
  rule : Rule
  alternatives : List (List Phase)

/-- The rules of a grammar, ready for matching. -/
structure Table where
  entries : List Table.Entry
  /-- the rule to skip between phases; it is declared if a rule skips white space -/
  whitespace : String

namespace Table

def rules (t : Table) : List Rule := t.entries.map (·.rule)

def entry? (t : Table) (name : String) : Option Entry :=
  t.entries.find? (·.rule.name = name)

def rule? (t : Table) (name : String) : Option Rule := (t.entry? name).map (·.rule)

def contains (t : Table) (name : String) : Bool := (t.entry? name).isSome

/-- The rule where parsing starts when none is asked for. -/
def start? (t : Table) : Option Rule := t.rules.find? Rule.isEntryCandidate

/-- The names that an earlier rule has already. -/
def duplicates : List String → List String
  | names => (names.zipIdx.filter fun (name, i) => (names.take i).contains name).map (·.1)

/-- The rules that the first definition of `name` begins with. -/
def firstRulesOf (rules : List Rule) (declared : List String) (name : String) : List String :=
  match rules.find? (·.name = name) with
  | some r => r.firstRules declared
  | none => []

/-- Every problem of a list of rules, each once: repeated names, then the problems of each rule, then
the circles among the rules, then the lack of a start. -/
def problems (rules : List Rule) (whitespace : String) : List Problem :=
  let declared := rules.map (·.name)
  let circles := Cycle.all (firstRulesOf rules declared) declared
  let noStart := if rules.any Rule.isEntryCandidate then [] else [Problem.noEntryRule]
  ((duplicates declared).map Problem.duplicateRule
    ++ rules.flatMap (Rule.problems declared whitespace)
    ++ circles.map Problem.indirectLeftRecursion ++ noStart).eraseDups

/-- Checks `rules` and resolves their symbols. -/
def build (rules : List Rule) (whitespace : String) : Except (List Problem) Table :=
  let settled := rules.map (Rule.settled whitespace)
  match problems settled whitespace with
  | [] => .ok ⟨settled.map fun r => ⟨r, r.phases⟩, whitespace⟩
  | faults => .error faults

end Table

end Grammarian
