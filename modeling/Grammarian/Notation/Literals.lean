import Grammarian.Grammar.Rule

/-!
# Literals taken apart

The attributed notation matches a plain literal character by character, which lets it ignore case; a
pattern for one character is written back as a literal.
-/

namespace Grammarian.Notation

open Text

/-- The pattern source that matches exactly `c`. -/
def escapeChar (c : Char) : List Char := if Pattern.isMeta c then ['\\', c] else [c]

/-- The characters of literals that are taken apart, quotation marks included. -/
def isSplittable (c : Char) : Bool :=
  isAsciiAlnum c || c ∈ ['\'', '"', '/', '(', ')', '&', '_', '.', ':', '=', ',', '+', '*', '-', '^',
    '\\']

/-- The pattern source for one character of a literal. -/
def charSource (ignoreCase : Bool) (c : Char) : List Char :=
  if ignoreCase ∧ isAsciiLetter c then ['[', c.toUpper, c.toLower, ']'] else escapeChar c

/-- The symbols of a quoted literal: one pattern a character, or the literal as it is when it is empty
or has other characters. -/
def splitLiteral (text : String) (ignoreCase : Bool) : Except PatternError (List Symbol) :=
  let cs := text.toList
  let inner := cs.tail.dropLast
  if inner.isEmpty || !cs.all isSplittable then .ok [.ofText text]
  else inner.mapM fun c =>
    (Pattern.compile (String.ofList (charSource ignoreCase c))).map Symbol.pattern

/-- The character that a pattern for a single one matches. -/
def singleChar? (source : List Char) : Option Char :=
  match source with
  | [c] => if escapeChar c = source then some c else none
  | ['\\', c] => if escapeChar c = source then some c else none
  | _ => none

end Grammarian.Notation
