/-!
# References

A symbol of an alternative may name what it stands for and carry a mark on either side of the name:

    Name      exactly once
    Name?     optional
    Name*     zero or more
    Name+     one or more
    &Name     must follow, consumes nothing
    !Name     must not follow, consumes nothing
    @Name     commits the alternative once it has matched

A name that begins with a quotation mark stands for a literal instead of a rule.
-/

namespace Grammarian

/-- How many times a phase may match. -/
inductive Repetition where
  | once
  | optional
  | zeroOrMore
  | oneOrMore
  deriving DecidableEq, Inhabited

/-- Whether a phase consumes what it matches, or only looks at it. -/
inductive Lookahead where
  | none
  | positive
  | negative
  deriving DecidableEq, Inhabited

/-- A name with its marks. -/
structure Reference where
  name : String
  repetition : Repetition := .once
  lookahead : Lookahead := .none
  pin : Bool := false
  deriving DecidableEq, Inhabited

/-- The mark after a name. -/
def Repetition.mark : Repetition → String
  | once => ""
  | optional => "?"
  | zeroOrMore => "*"
  | oneOrMore => "+"

namespace Reference

/-- The repetition that the last character of a reference marks, and what stands before it. -/
def splitTail (cs : List Char) : Repetition × List Char :=
  match cs.getLast? with
  | some '?' => (.optional, cs.dropLast)
  | some '*' => (.zeroOrMore, cs.dropLast)
  | some '+' => (.oneOrMore, cs.dropLast)
  | _ => (.once, cs)

/-- Reads a reference as it is written. One mark is taken off at each end, so every text is a
reference and further marks belong to the name. -/
def ofText (text : String) : Reference :=
  let (repetition, rest) := splitTail text.toList
  match rest with
  | '&' :: name => ⟨String.ofList name, repetition, .positive, false⟩
  | '!' :: name => ⟨String.ofList name, repetition, .negative, false⟩
  | '@' :: name => ⟨String.ofList name, repetition, .none, true⟩
  | name => ⟨String.ofList name, repetition, .none, false⟩

/-- The undecorated reference to `name`. -/
def plain (name : String) : Reference := { name }

def isOptional (r : Reference) : Bool :=
  r.repetition = .optional || r.repetition = .zeroOrMore

def repeats (r : Reference) : Bool :=
  r.repetition = .zeroOrMore || r.repetition = .oneOrMore

def needsOne (r : Reference) : Bool := r.repetition = .oneOrMore

def isPositive (r : Reference) : Bool := r.lookahead = .positive

def isNegative (r : Reference) : Bool := r.lookahead = .negative

def isLookahead (r : Reference) : Bool := r.lookahead ≠ .none

/-- Whether the name is a quoted literal rather than a rule. -/
def isLiteral (r : Reference) : Bool :=
  match r.name.toList with
  | c :: _ => c = '"' || c = '\''
  | [] => false

/-- Whether the reference carries no mark at all. -/
def isPlain (r : Reference) : Bool :=
  r.repetition = .once && r.lookahead = .none && !r.pin

/-- The mark before the name. -/
def leadMark (r : Reference) : String :=
  match r.lookahead with
  | .positive => "&"
  | .negative => "!"
  | .none => if r.pin then "@" else ""

/-- The mark after the name. -/
def tailMark (r : Reference) : String := r.repetition.mark

/-- The reference as it is written. -/
def text (r : Reference) : String := r.leadMark ++ r.name ++ r.tailMark

end Reference

end Grammarian
