import Grammarian.Text.Table.Alphabetic
import Grammarian.Text.Table.CaseGroup
import Grammarian.Text.Table.Digit
import Grammarian.Text.Table.Hidden
import Grammarian.Text.Table.Numeric
import Grammarian.Text.Table.Space
import Grammarian.Text.Table.Word

/-!
# Character classes

Each class answers for the ASCII characters by a short rule and for the others from a table.
-/

namespace Grammarian.Text

def isAscii (c : Char) : Bool := c.toNat < 128

def isAsciiDigit (c : Char) : Bool := '0' ≤ c && c ≤ '9'
def isAsciiUpper (c : Char) : Bool := 'A' ≤ c && c ≤ 'Z'
def isAsciiLower (c : Char) : Bool := 'a' ≤ c && c ≤ 'z'
def isAsciiLetter (c : Char) : Bool := isAsciiUpper c || isAsciiLower c
def isAsciiAlnum (c : Char) : Bool := isAsciiLetter c || isAsciiDigit c

/-- The ASCII blanks: space, and tab to carriage return. -/
def isAsciiSpace (c : Char) : Bool := c = ' ' || ('\t' ≤ c && c ≤ '\r')

def isWord (c : Char) : Bool :=
  if isAscii c then isAsciiAlnum c || c = '_' else wordRanges.contains c

def isDigit (c : Char) : Bool :=
  if isAscii c then isAsciiDigit c else digitRanges.contains c

def isSpace (c : Char) : Bool :=
  if isAscii c then isAsciiSpace c else spaceRanges.contains c

def isAlphabetic (c : Char) : Bool :=
  if isAscii c then isAsciiLetter c else alphabeticRanges.contains c

def isAlphanumeric (c : Char) : Bool :=
  if isAscii c then isAsciiAlnum c
  else alphabeticRanges.contains c || numericRanges.contains c

/-- Whether `c` is written as a code in visible text. -/
def isHidden (c : Char) : Bool :=
  if isAscii c then c < ' ' || c = '\x7f' else hiddenRanges.contains c

/-- The codes in one word of `caseGroupText`. -/
def codesOfWord (w : List Char) : List Nat :=
  (w.splitOn ',').map hexValue

/-- The groups of characters that differ in case only, by code. -/
def caseGroups : List (List Nat) := (words caseGroupText.toList).map codesOfWord

/-- The other characters that differ from `c` in case only. -/
def caseVariants (c : Char) : List Char :=
  (caseGroups.filter (·.contains c.toNat)).flatten.filterMap fun n =>
    if n = c.toNat then none else scalar? n

end Grammarian.Text
