/-!
# Values

Data as JSON knows it, for rules and trees that are handed to other programs.
-/

namespace Grammarian

/-- A value. The keys of an object stand in the order they are written. -/
inductive Value where
  | null
  | bool (b : Bool)
  | int (n : Int)
  /-- a number with a fraction: `mantissa` divided by ten to the `places` -/
  | decimal (mantissa : Int) (places : Nat)
  | string (s : String)
  | list (items : List Value)
  | object (fields : List (String × Value))
  deriving Inhabited

namespace Value

/-- A number. -/
def nat (n : Nat) : Value := int n

/-- The value of a field; of several with one key the last counts. -/
def field? (fields : List (String × Value)) (key : String) : Option Value :=
  ((fields.filter (·.1 = key)).getLast?).map (·.2)

end Value

end Grammarian
