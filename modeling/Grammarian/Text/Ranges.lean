import Grammarian.Text.Hex

/-!
# Ranges of characters

A property of characters, given as the list of the code ranges that have it. Tables are written as
text: hexadecimal codes and pairs `low-high`, parted by blanks and line ends.
-/

namespace Grammarian.Text

/-- Inclusive code ranges. -/
structure Ranges where
  pairs : List (Nat × Nat)

/-- The words of a text: its longest runs without blank and line end. -/
def words (cs : List Char) : List (List Char) :=
  (cs.splitOnP fun c => c = ' ' || c = '\n').filter (· ≠ [])

namespace Ranges

/-- A word `low-high` or a single code. -/
def pairOfWord (w : List Char) : Nat × Nat :=
  let low := w.takeWhile (· ≠ '-')
  match w.dropWhile (· ≠ '-') with
  | _ :: high => (hexValue low, hexValue high)
  | [] => (hexValue low, hexValue low)

def ofText (text : String) : Ranges := ⟨(words text.toList).map pairOfWord⟩

def contains (r : Ranges) (c : Char) : Bool :=
  r.pairs.any fun (low, high) => low ≤ c.toNat && c.toNat ≤ high

end Ranges

end Grammarian.Text
