import Grammarian.Pattern.CharSet

/-!
# Regular expressions

An expression and where its matches end. `ends` lists the places that a match from a given spot can
end at, the preferred one first: the first alternative before the second, one more round of a greedy
repetition before leaving it. The match an expression has at a spot is the head of this list.
-/

namespace Grammarian.Pattern

open Text

/-- A place in a text: the character before it and what follows. -/
structure Spot where
  before : Option Char
  rest : List Char

/-- The place at the start of a text. -/
def Spot.start (cs : List Char) : Spot := ⟨none, cs⟩

/-- A condition on a place. -/
inductive Look where
  | textStart
  | textEnd
  | lineStart
  | lineEnd
  /-- the start of a line, where a carriage return with or without line feed ends lines too -/
  | lineStartCrlf
  | lineEndCrlf
  | wordBoundary
  | notWordBoundary
  | wordStart
  | wordEnd
  /-- no word character before -/
  | wordStartHalf
  /-- no word character after -/
  | wordEndHalf
  deriving DecidableEq

/-- Whether the place fulfils the condition; `isWordChar` tells word characters. -/
def Look.holds (isWordChar : Char → Bool) (look : Look) (p : Spot) : Bool :=
  let wordBefore := p.before.any isWordChar
  let wordAfter := p.rest.head?.any isWordChar
  match look with
  | .textStart => p.before.isNone
  | .textEnd => p.rest.isEmpty
  | .lineStart => p.before.isNone || p.before = some '\n'
  | .lineEnd => p.rest.isEmpty || p.rest.head? = some '\n'
  | .lineStartCrlf =>
    p.before.isNone || p.before = some '\n'
      || (p.before = some '\r' && p.rest.head? ≠ some '\n')
  | .lineEndCrlf =>
    p.rest.isEmpty || p.rest.head? = some '\r'
      || (p.rest.head? = some '\n' && p.before ≠ some '\r')
  | .wordBoundary => wordBefore != wordAfter
  | .notWordBoundary => wordBefore == wordAfter
  | .wordStart => !wordBefore && wordAfter
  | .wordEnd => wordBefore && !wordAfter
  | .wordStartHalf => !wordBefore
  | .wordEndHalf => !wordAfter

/-- A regular expression. -/
inductive Regex where
  /-- the empty text -/
  | empty
  /-- one character of a set -/
  | set (s : CharSet)
  | look (l : Look)
  /-- a condition on words in the narrow sense, where only ASCII has word characters -/
  | asciiLook (l : Look)
  | seq (a b : Regex)
  /-- either, the first preferred -/
  | alt (a b : Regex)
  /-- `count` times in a row -/
  | times (count : Nat) (a : Regex)
  /-- up to `count` times, as often as possible when `greedy` -/
  | upTo (count : Nat) (greedy : Bool) (a : Regex)
  /-- once or more -/
  | plus (greedy : Bool) (a : Regex)
  deriving DecidableEq

/-- The spots without repeats; spots of one text are told apart by what is left of it. -/
def Spot.distinct : List Spot → List Spot
  | [] => []
  | p :: ps => p :: (distinct ps).filter fun q => q.rest.length ≠ p.rest.length

/-- The ends of one step after another: every end of `f` carried on by `g`. -/
def andThen (f g : Spot → List Spot) (p : Spot) : List Spot :=
  match f p with
  | [] => []
  | [q] => g q
  | qs => Spot.distinct (qs.flatMap g)

/-- `f` done `count` times in a row. -/
def repeated (f : Spot → List Spot) : Nat → Spot → List Spot
  | 0, p => [p]
  | n + 1, p => andThen f (repeated f n) p

/-- `f` done up to `count` times. -/
def atMost (f : Spot → List Spot) (greedy : Bool) : Nat → Spot → List Spot
  | 0, p => [p]
  | n + 1, p =>
    if greedy then Spot.distinct (andThen f (atMost f greedy n) p ++ [p])
    else Spot.distinct (p :: andThen f (atMost f greedy n) p)

/-- Adds to `found`, latest first, the ends of one or more further rounds of `f` from `p`. Every
round has to consume something, and a spot found before is not gone through again. -/
def rounds (f : Spot → List Spot) (greedy : Bool) (p : Spot) (found : List Spot) : List Spot :=
  (f p).foldl (fun found q =>
    if _h : q.rest.length < p.rest.length then
      if found.any fun r => r.rest.length = q.rest.length then found
      else if greedy then q :: rounds f greedy q found
      else rounds f greedy q (q :: found)
    else found) found
termination_by p.rest.length

/-- The ends of one or more rounds of `f`. A first round that consumes nothing is the only round. -/
def oneOrMore (f : Spot → List Spot) (greedy : Bool) (p : Spot) : List Spot :=
  let found := (f p).foldl (fun found q =>
    if found.any fun r => r.rest.length = q.rest.length then found
    else if q.rest.length < p.rest.length then
      if greedy then q :: rounds f greedy q found
      else rounds f greedy q (q :: found)
    else q :: found) []
  found.reverse

namespace Regex

/-- Where the matches from a spot can end, the preferred end first. -/
def ends : Regex → Spot → List Spot
  | empty, p => [p]
  | set s, p =>
    match p.rest with
    | c :: cs => if s.contains c then [⟨some c, cs⟩] else []
    | [] => []
  | look l, p => if l.holds isWord p then [p] else []
  | asciiLook l, p => if l.holds NamedClass.asciiWord.contains p then [p] else []
  | seq a b, p => andThen a.ends b.ends p
  | alt a b, p => a.ends p ++ b.ends p
  | times n a, p => repeated a.ends n p
  | upTo n greedy a, p => atMost a.ends greedy n p
  | plus greedy a, p => oneOrMore a.ends greedy p

/-- Zero or more times. -/
def star (greedy : Bool) (a : Regex) : Regex := upTo 1 greedy (plus greedy a)

/-- One expression after another. -/
def sequence (rs : List Regex) : Regex :=
  match rs with
  | [] => empty
  | [r] => r
  | r :: rs => seq r (sequence rs)

/-- Any of the branches, an earlier one preferred. -/
def choice (rs : List Regex) : Regex :=
  match rs with
  | [] => empty
  | [r] => r
  | r :: rs => alt r (choice rs)

/-- How large the expression gets when every count is written out. -/
def weight : Regex → Nat
  | empty | set _ | look _ | asciiLook _ => 1
  | seq a b | alt a b => a.weight + b.weight
  | times n a => n * a.weight
  | upTo n _ a => n * (a.weight + 1)
  | plus _ a => a.weight + 1

/-- Whether a match can only begin at the start of the text. -/
def isAnchored : Regex → Bool
  | look .textStart => true
  | seq a b => a.isAnchored || (b.isAnchored && a = empty)
  | alt a b => a.isAnchored && b.isAnchored
  | _ => false

/-- The first match found from a spot on: the preferred one at the leftmost spot that has any. The
answer is what follows the match. -/
def searchFrom (r : Regex) (before : Option Char) : List Char → Option (List Char)
  | [] => (r.ends ⟨before, []⟩).head?.map (·.rest)
  | c :: cs =>
    match (r.ends ⟨before, c :: cs⟩).head? with
    | some q => some q.rest
    | none => searchFrom r (some c) cs

/-- What follows the first match in a text. An anchored expression is tried at the start only. -/
def search (r : Regex) (cs : List Char) : Option (List Char) :=
  if r.isAnchored then (r.ends (.start cs)).head?.map (·.rest)
  else r.searchFrom none cs

end Regex

end Grammarian.Pattern
