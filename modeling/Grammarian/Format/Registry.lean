import Grammarian.Notation.Dialect
import Grammarian.Serial.Json
import Grammarian.Serial.Rule
import Grammarian.Yaml.Rules

/-!
# Output formats

Formats write a list of rules as text. A registry finds them by name.
-/

namespace Grammarian

/-- Why rules could not be written. -/
inductive FormatError where
  | notFound (name : String)
  | notWritten (reason : String)
  deriving DecidableEq

def FormatError.message : FormatError → String
  | notFound name => "Format '" ++ name ++ "' not found"
  | notWritten reason => "Serialization error: " ++ reason

/-- A way to write a list of rules. -/
structure Format where
  name : String
  description : String := ""
  write : List Rule → Except FormatError String

namespace Format

def json : Format where
  name := "json"
  description := "Rule table as JSON, loadable with serde"
  write rules := .ok (Json.text (rulesToValue rules))

def yaml : Format where
  name := "yaml"
  description := "Rule table as YAML"
  write rules := .ok (Yaml.rulesText rules)

def ebnf : Format where
  name := "ebnf"
  description := "Attributed EBNF with pins, recovery and whitespace attributes"
  write rules := .ok (Notation.grammarText .attributed rules)

def w3c : Format where
  name := "w3c"
  description := "W3C EBNF; parser attributes are dropped"
  write rules := .ok (Notation.grammarText .w3c rules)

end Format

/-- The known formats, in the order of their names, no two of which are the same. -/
structure FormatRegistry where
  formats : List Format

namespace FormatRegistry

def empty : FormatRegistry := ⟨[]⟩

def get? (r : FormatRegistry) (name : String) : Option Format :=
  r.formats.find? (·.name = name)

def contains (r : FormatRegistry) (name : String) : Bool := (r.get? name).isSome

/-- Adds a format, in place of the one with its name if there is one. -/
def insert (r : FormatRegistry) (f : Format) : FormatRegistry :=
  ⟨r.formats.filter (·.name < f.name) ++ f :: r.formats.filter (f.name < ·.name)⟩

def names (r : FormatRegistry) : List String := r.formats.map (·.name)

/-- Writes rules in the format of a name. -/
def write (r : FormatRegistry) (rules : List Rule) (name : String) : Except FormatError String :=
  match r.get? name with
  | some f => f.write rules
  | none => .error (.notFound name)

/-- The formats that are always there. -/
def standard : FormatRegistry :=
  (((empty.insert Format.json).insert Format.yaml).insert Format.ebnf).insert Format.w3c

end FormatRegistry

end Grammarian
