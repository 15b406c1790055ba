import Grammarian.Parse.RulePlan

/-!
# Matching

Carrying out the plans of a table. A rule that is called again at the same place before the first call
has come to an end can only call itself for ever, so the second call fails. As there are finitely many
rules and places, matching always ends.
-/

namespace Grammarian

/-- A call of a rule: its name and how many characters are left where it is called. -/
abbrev Call := String × Nat

namespace Table

/-- The outcome of a call: the events on the way are put between its beginning and its end. -/
def concluded (name : String) (depth : Nat) (input : List Char) (r : Traced (Option Match)) :
    Traced (Option Match) :=
  match r.value with
  | some m =>
    ⟨some m, .attempt name input depth :: r.events
      ++ [.matched name (consumed input m.rest) depth]⟩
  | none => ⟨none, .attempt name input depth :: r.events ++ [.failed name depth]⟩

/-- Matches rule `name` at the front of `input`, while the calls in `active` are in progress. `depth`
counts the rules around the call. `budget` is how many calls may still be nested; where it is enough
for every rule at every place, the guard fails a call before the budget does. -/
def call (t : Table) (maxDepth : Option Nat) :
    (budget : Nat) → (active : List Call) → (depth : Nat) → Answers
  | budget, active, depth, name, input =>
    match t.entry? name with
    | none => ⟨none, []⟩
    | some entry =>
      if maxDepth.any (· < depth) then ⟨none, [.depthExceeded name depth]⟩
      else if active.contains (name, input.length) then
        concluded name depth input ⟨none, []⟩
      else
        match budget with
        | 0 => concluded name depth input ⟨none, []⟩
        | budget + 1 =>
          concluded name depth input <|
            (entry.plan t.whitespace depth input).run
              (t.call maxDepth budget ((name, input.length) :: active) (depth + 1))

/-- Enough nested calls for every rule at every place of an input. -/
def budgetFor (t : Table) (input : List Char) : Nat := t.entries.length * (input.length + 1) + 1

/-- Matches rule `name` at the front of `input`. -/
def matchRule (t : Table) (maxDepth : Option Nat) (name : String) (input : List Char) :
    Traced (Option Match) :=
  t.call maxDepth (t.budgetFor input) [] 0 name input

end Table

end Grammarian
