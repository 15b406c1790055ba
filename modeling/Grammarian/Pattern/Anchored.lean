import Grammarian.Pattern.Reader
import Grammarian.Text.Utf8

/-!
# Patterns

A pattern is a regular expression that matches at the cursor only: its source stands in a group behind
a start-of-text anchor. Two patterns are the same when their sources are.
-/

namespace Grammarian

namespace Pattern

/-- The expression that is read for a source: the anchor, and the source in a group. -/
def anchored (source : List Char) : List Char :=
  '^' :: '(' :: '?' :: ':' :: source ++ [')']

end Pattern

/-- A source and the expression read from it. -/
structure Pattern where
  source : String
  regex : Pattern.Regex
  read_source : Pattern.readRegex? (Pattern.anchored source.toList) = some regex

/-- A source that is no regular expression. -/
structure PatternError where
  source : String
  deriving DecidableEq

def PatternError.message (e : PatternError) : String :=
  "Invalid pattern /" ++ e.source ++ "/: not a regular expression"

namespace Pattern

theorem ext_source {p q : Pattern} (h : p.source = q.source) : p = q := by
  obtain ⟨s, r, hr⟩ := p
  obtain ⟨s', r', hr'⟩ := q
  subst h
  cases Option.some.inj (hr.symm.trans hr')
  rfl

instance : DecidableEq Pattern := fun p q =>
  if h : p.source = q.source then isTrue (ext_source h)
  else isFalse fun e => h (congrArg source e)

/-- The pattern with a given source. -/
def compile (source : String) : Except PatternError Pattern :=
  match h : readRegex? (anchored source.toList) with
  | some r => .ok ⟨source, r, h⟩
  | none => .error ⟨source⟩

/-- The pattern that matches the empty text. -/
def empty : Pattern := ⟨"", .seq (.look .textStart) .empty, by rfl⟩

instance : Inhabited Pattern := ⟨empty⟩

/-- The pattern with a source known to be well formed. -/
def ofSource (source : String) : Pattern :=
  match compile source with
  | .ok p => p
  | .error _ => empty

/-- What follows the match of the pattern at the front of `input`. A match that consumes nothing
counts only for the empty source. -/
def match? (p : Pattern) (input : List Char) : Option (List Char) :=
  match p.regex.search input with
  | some rest =>
    if rest.length = input.length ∧ p.source ≠ "" then none else some rest
  | none => none

/-- How many bytes of `input` the pattern matches. -/
def matchLength? (p : Pattern) (input : List Char) : Option Nat :=
  (p.match? input).map fun rest => Text.byteCount input - Text.byteCount rest

end Pattern

end Grammarian
