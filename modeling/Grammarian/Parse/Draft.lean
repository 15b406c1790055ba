/-!
# Drafts

What matching builds before the tree is finished. A place in the input is given by the number of
characters after it, so a draft means the same wherever the match around it began.
-/

namespace Grammarian

/-- What went wrong at a syntax error. -/
inductive Fault where
  /-- a committed alternative needed `name` -/
  | missing (name : String)
  /-- input was skipped to resume `rule` -/
  | skipped (rule : String)

/-- A node of a draft. -/
structure Draft where
  kind : String
  /-- what went wrong, for a syntax error -/
  fault : Option Fault := none
  /-- the characters left at the start of the node -/
  left : Nat
  /-- the characters left after the node -/
  after : Nat
  children : List Draft := []

/-- A successful match: what it built, whether the children take the place of the node, and the input
after it. -/
structure Match where
  draft : Draft
  dissolves : Bool
  rest : List Char

/-- What a match adds to the children of the node around it. -/
def Match.additions (m : Match) : List Draft :=
  if m.dissolves then m.draft.children else [m.draft]

/-- The front of `input` that ends where `rest` begins. -/
def consumed (input rest : List Char) : List Char := input.take (input.length - rest.length)

end Grammarian
