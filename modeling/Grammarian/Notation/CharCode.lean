import Grammarian.Text.Classes

/-!
# Character codes

Productions write a character by its code as `#x` and digits, patterns as an escape with two or four
digits. `expand` turns the first into the second, `restore` the second into the first.
-/

namespace Grammarian.CharCode

open Text

/-- Replaces every `#x` with `count` letters or digits behind it by `mark` and these. -/
def expandCount (count : Nat) (mark : List Char) : List Char → List Char
  | '#' :: 'x' :: r =>
    if (r.take count).length = count ∧ (r.take count).all isAsciiAlnum then
      mark ++ r.take count ++ expandCount count mark (r.drop count)
    else '#' :: expandCount count mark ('x' :: r)
  | c :: r => c :: expandCount count mark r
  | [] => []
termination_by cs => cs.length
decreasing_by all_goals simp_wf; try omega

/-- Character codes as escapes of patterns. The longest codes are taken first, and a code of one or
three digits is filled up by a zero. -/
def expand (cs : List Char) : List Char :=
  expandCount 1 ['\\', 'x', '0'] <| expandCount 2 ['\\', 'x'] <|
    expandCount 3 ['\\', 'u', '0'] <| expandCount 4 ['\\', 'u'] cs

/-- Whether `cs` begins with `count` hexadecimal digits. -/
def startsWithHex (count : Nat) (cs : List Char) : Bool :=
  (cs.take count).length = count && (cs.take count).all isHexDigit

/-- Escapes of patterns as character codes. -/
def restore : List Char → List Char
  | '\\' :: 'x' :: r =>
    if startsWithHex 2 r then '#' :: 'x' :: r.take 2 ++ restore (r.drop 2)
    else '\\' :: restore ('x' :: r)
  | '\\' :: 'u' :: r =>
    if startsWithHex 4 r then '#' :: 'x' :: r.take 4 ++ restore (r.drop 4)
    else '\\' :: restore ('u' :: r)
  | c :: r => c :: restore r
  | [] => []
termination_by cs => cs.length
decreasing_by all_goals simp_wf; try omega

end Grammarian.CharCode
