import Grammarian.Grammar.Rule
import Grammarian.Text.Visible

/-!
# Traces

What matching does, step by step. The depth of an event is the number of rules in progress around it.
-/

namespace Grammarian

/-- One step of matching. -/
inductive Event where
  | attempt (rule : String) (input : List Char) (depth : Nat)
  | matched (rule : String) (text : List Char) (depth : Nat)
  | failed (rule : String) (depth : Nat)
  /-- the rule is committed, by its phase number `phase` -/
  | pinned (rule : String) (phase : Nat) (depth : Nat)
  | syntaxError (rule expected : String) (depth : Nat)
  | recovering (rule target : String) (depth : Nat)
  | recovered (rule : String) (skipped : List Char) (depth : Nat)
  | depthExceeded (rule : String) (depth : Nat)
  deriving DecidableEq

namespace Event

def rule : Event → String
  | attempt r _ _ | matched r _ _ | failed r _ | pinned r _ _ => r
  | syntaxError r _ _ | recovering r _ _ | recovered r _ _ | depthExceeded r _ => r

def depth : Event → Nat
  | attempt _ _ d | matched _ _ d | failed _ d | pinned _ _ d => d
  | syntaxError _ _ d | recovering _ _ d | recovered _ _ d | depthExceeded _ d => d

/-- The first line of a text; a carriage return belongs to the line end when a line feed follows. -/
def firstLine (cs : List Char) : List Char :=
  let line := cs.takeWhile (· ≠ '\n')
  if line.length < cs.length ∧ line.getLast? = some '\r' then line.dropLast else line

/-- The most characters that an excerpt shows. -/
def excerptLength : Nat := 40

/-- The beginning of the first line, in visible form. -/
def excerpt (cs : List Char) : String :=
  let line := firstLine cs
  String.ofList (Text.visible
    (if excerptLength < line.length then line.take excerptLength ++ ['.', '.', '.'] else line))

def text : Event → String
  | attempt rule input _ => "Trying to get " ++ rule ++ " from " ++ excerpt input
  | matched rule text _ => ">>> Got " ++ rule ++ " " ++ excerpt text
  | failed rule _ => "<<< No match for " ++ rule
  | pinned rule phase _ => "Pinned " ++ rule ++ " at phase " ++ toString phase
  | syntaxError rule expected _ => "!!! " ++ rule ++ ": expecting " ++ expected
  | recovering rule target _ => "Recovering " ++ rule ++ " until " ++ target
  | recovered rule skipped _ => "Recovered " ++ rule ++ ", skipped " ++ excerpt skipped
  | depthExceeded rule depth => "Depth limit reached at " ++ rule ++ " (" ++ toString depth ++ ")"

/-- The event as a line of a trace, indented by its depth. -/
def line (e : Event) : String := String.join (List.replicate e.depth "│  ") ++ e.text

end Event

end Grammarian
