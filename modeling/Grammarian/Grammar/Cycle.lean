/-!
# Circles of names

Which names reach themselves, given the names that each one leads to.
-/

namespace Grammarian.Cycle

/-- Looks for a way back to `start` along `path`, the way taken so far with its latest name first. `nexts`
are the names left to follow from there; `visited` names are not entered again. The answer is the way,
if there is one, and the names visited. `depth` bounds how many more names may be entered. -/
def wayBack (leadsTo : String → List String) (start : String) (depth : Nat) (path : List String)
    (visited : List String) : (nexts : List String) → Option (List String) × List String
  | [] => (none, visited)
  | next :: rest =>
    if next = start then
      if 2 ≤ path.length then (some path.reverse, visited)
      else wayBack leadsTo start depth path visited rest
    else if visited.contains next then wayBack leadsTo start depth path visited rest
    else
      match depth with
      | 0 => (none, visited)
      | depth + 1 =>
        match wayBack leadsTo start depth (next :: path) (next :: visited) (leadsTo next) with
        | (some cycle, visited) => (some cycle, visited)
        | (none, visited) => wayBack leadsTo start (depth + 1) path visited rest
termination_by nexts => (depth, nexts.length)

/-- A circle of two or more of the `names` that begins at `start`. -/
def through? (leadsTo : String → List String) (names : List String) (start : String) :
    Option (List String) :=
  (wayBack leadsTo start names.length [start] [start] (leadsTo start)).1

/-- Whether two circles have the same members. -/
def sameMembers (a b : List String) : Bool :=
  a.all b.contains && b.all a.contains

/-- The circles among `names`. Of several with the same members only the first is kept. -/
def all (leadsTo : String → List String) (names : List String) : List (List String) :=
  (names.filterMap (through? leadsTo names)).foldl
    (fun found cycle => if found.any (sameMembers cycle) then found else found ++ [cycle]) []

end Grammarian.Cycle
