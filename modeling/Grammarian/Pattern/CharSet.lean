import Grammarian.Text.Classes

/-!
# Sets of characters

What one position of a pattern may match: ranges, named classes and the set operations of a bracketed
class. A set is kept as it was written, and `contains` is its meaning.
-/

namespace Grammarian.Pattern

open Text

/-- A class that patterns know by name. -/
inductive NamedClass where
  | digit | word | space
  | asciiDigit | asciiWord | asciiSpace
  | alnum | alpha | ascii | blank | cntrl | graph | lower | print | punct | upper | xdigit
  deriving DecidableEq

namespace NamedClass

def contains : NamedClass → Char → Bool
  | digit, c => isDigit c
  | word, c => isWord c
  | space, c => isSpace c
  | asciiDigit, c => isAsciiDigit c
  | asciiWord, c => isAsciiAlnum c || c = '_'
  | asciiSpace, c => isAsciiSpace c
  | alnum, c => isAsciiAlnum c
  | alpha, c => isAsciiLetter c
  | ascii, c => isAscii c
  | blank, c => c = ' ' || c = '\t'
  | cntrl, c => c < ' ' || c = '\x7f'
  | graph, c => '!' ≤ c && c ≤ '~'
  | lower, c => isAsciiLower c
  | print, c => ' ' ≤ c && c ≤ '~'
  | punct, c => '!' ≤ c && c ≤ '~' && !isAsciiAlnum c
  | upper, c => isAsciiUpper c
  | xdigit, c => isHexDigit c

/-- The class that `[:name:]` stands for inside a bracketed class. -/
def ofName? (name : String) : Option NamedClass :=
  match name with
  | "alnum" => some alnum
  | "alpha" => some alpha
  | "ascii" => some ascii
  | "blank" => some blank
  | "cntrl" => some cntrl
  | "digit" => some asciiDigit
  | "graph" => some graph
  | "lower" => some lower
  | "print" => some print
  | "punct" => some punct
  | "space" => some asciiSpace
  | "upper" => some upper
  | "word" => some asciiWord
  | "xdigit" => some xdigit
  | _ => none

end NamedClass

/-- A set of characters. -/
inductive CharSet where
  /-- no character -/
  | none
  /-- the characters from `low` to `high`, both included -/
  | range (low high : Char)
  | named (c : NamedClass)
  | union (a b : CharSet)
  | inter (a b : CharSet)
  | diff (a b : CharSet)
  | symmDiff (a b : CharSet)
  | compl (a : CharSet)
  /-- the characters equal up to case to one of `a` -/
  | foldCase (a : CharSet)
  deriving DecidableEq

namespace CharSet

def contains : CharSet → Char → Bool
  | none, _ => false
  | range low high, c => low ≤ c && c ≤ high
  | named n, c => n.contains c
  | union a b, c => a.contains c || b.contains c
  | inter a b, c => a.contains c && b.contains c
  | diff a b, c => a.contains c && !b.contains c
  | symmDiff a b, c => a.contains c != b.contains c
  | compl a, c => !a.contains c
  | foldCase a, c => a.contains c || (caseVariants c).any a.contains

/-- The set with one member. -/
def single (c : Char) : CharSet := range c c

/-- Every character. -/
def all : CharSet := compl none

/-- Every character but the line feed, as a dot stands for. -/
def notNewline : CharSet := compl (single '\n')

/-- Every character but carriage return and line feed. -/
def notLineEnd : CharSet := compl (union (single '\r') (single '\n'))

end CharSet

end Grammarian.Pattern
