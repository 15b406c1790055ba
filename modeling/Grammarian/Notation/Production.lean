import Grammarian.Notation.Attribute
import Grammarian.Notation.CharCode
import Grammarian.Notation.Lexical
import Grammarian.Notation.Literals

/-!
# Rules from productions

Turns the tree of a grammar with productions into rules. A group, and a character class with marks,
is no single symbol; each becomes a helper rule, named after the production and numbered through the
grammar, whose children take its place in parse trees.
-/

namespace Grammarian.Notation

/-- The two notations with productions. -/
inductive Style where
  | w3c
  | attributed
  deriving DecidableEq

/-- The rules made so far, helpers before the rules that use them, and the number of helpers. -/
structure Compiled where
  rules : List Rule := []
  helpers : Nat := 0

namespace Compiled

def push (c : Compiled) (r : Rule) : Compiled := { c with rules := c.rules ++ [r] }

/-- The name for the next helper under a rule. -/
def helperName (c : Compiled) (parent : String) : String :=
  "%" ++ String.ofList (parent.toList.dropWhile (· = '%')) ++ "_" ++ toString c.helpers

def countHelper (c : Compiled) : Compiled := { c with helpers := c.helpers + 1 }

end Compiled

/-- The mark that the item before an item puts on it. -/
def markBefore (previous : Option Node) : String :=
  match previous with
  | some n =>
    if n.kind = "PrimaryPreDecoration" then (if n.text = "~" then "@" else n.text) else ""
  | none => ""

/-- The mark that the item after an item puts on it. -/
def markAfter (next : Option Node) : String :=
  match next with
  | some n => if n.kind = "PrimaryDecoration" then n.text else ""
  | none => ""

/-- The symbol for a name between marks. -/
def marked (lead name tail : String) : Symbol := .ofText (lead ++ name ++ tail)

/-- The symbols of a literal: taken apart in the attributed notation, unless it has marks. -/
def literalSymbols (style : Style) (scope : Attributes) (lead text tail : String) :
    Except GrammarFailure (List Symbol) :=
  if style = .attributed ∧ lead = "" ∧ tail = "" then
    (splitLiteral text (scope.flag "ignoreCase")).mapError .pattern
  else .ok [marked lead text tail]

/-- The symbol of a character code or class; with marks it needs a helper. -/
def classSymbol (parent : String) (scope : Attributes) (lead text tail : String) (c : Compiled) :
    Except GrammarFailure (Symbol × Compiled) :=
  match Pattern.compile (String.ofList (CharCode.expand text.toList)) with
  | .error e => .error (.pattern e)
  | .ok p =>
    if lead = "" ∧ tail = "" then .ok (.pattern p, c)
    else
      let name := c.helperName parent
      let r := { helper name [[.pattern p]] with
        implicitWhitespace := some (scope.whitespace?.getD false) }
      .ok (marked lead name tail, c.countHelper.push r)

/-- Refuses an attribute that counts phases on a rule with several alternatives. -/
def needOneAlternative (r : Rule) (attr : String) : Except GrammarFailure Unit :=
  if r.alternatives.length > 1 then .error (.invalidAttribute r.name attr .manyAlternatives)
  else .ok ()

/-- The phase that a `pin` attribute names. -/
def pinPhase (r : Rule) (value : String) : Except GrammarFailure Nat :=
  match phaseNumber? value with
  | some n => .ok n
  | none => .error (.invalidAttribute r.name "pin" (.noPhaseNumber value))

/-- The rule of a production or group: its own attributes set what it recovers to, where it commits
and what becomes of its node; whether it skips white space is a matter of the attributes in scope. -/
def ruleWith (own scope : Attributes) (name : String) (alternatives : List (List Symbol)) :
    Except GrammarFailure Rule := do
  let r : Rule :=
    { name, alternatives
      fragment := isHelperName name || own.flag "fragment"
      collapseSingleChild := own.flag "simplifyWhenOneChildren"
      implicitWhitespace := scope.whitespace? }
  let r ← match own.get? "recoverUntil" with
    | some target => do
      needOneAlternative r "recoverUntil"
      pure { r with recoverTo := some target }
    | none => pure r
  match own.get? "pin" with
  | some value => do
    needOneAlternative r "pin"
    let phase ← pinPhase r value
    pure { r with pinAt := some phase }
  | none => pure r

mutual

/-- Adds the rules of a production or group: helpers first, then its own. A group has the attributes
of its production, `inherited`, in scope. -/
def production (style : Style) (name : String) (inherited : Option Attributes) :
    Node → Compiled → Except GrammarFailure Compiled
  | ⟨_, _, _, _, children⟩, c => do
    let own ← Attributes.ofChildren children
    let scope := inherited.getD own
    let (alternatives, c) ← sequences style name scope children c
    let r ← ruleWith own scope name alternatives
    pure (c.push r)

/-- The alternatives among the children of a production. -/
def sequences (style : Style) (parent : String) (scope : Attributes) :
    List Node → Compiled → Except GrammarFailure (List (List Symbol) × Compiled)
  | [], c => pure ([], c)
  | n :: ns, c =>
    if n.kind = "SequenceOrDifference" then do
      let (symbols, c) ← sequence style parent scope n c
      let (more, c) ← sequences style parent scope ns c
      pure (symbols :: more, c)
    else sequences style parent scope ns c

/-- The symbols of one alternative. -/
def sequence (style : Style) (parent : String) (scope : Attributes) :
    Node → Compiled → Except GrammarFailure (List Symbol × Compiled)
  | ⟨_, _, _, _, children⟩, c => items style parent scope none children c

/-- The symbols of the items of an alternative, `previous` being the item before them. -/
def items (style : Style) (parent : String) (scope : Attributes) (previous : Option Node) :
    List Node → Compiled → Except GrammarFailure (List Symbol × Compiled)
  | [], c => pure ([], c)
  | n :: ns, c => do
    let lead := markBefore previous
    let tail := markAfter ns.head?
    let (symbols, c) ← match n.kind with
      | "Minus" => throw (.difference parent)
      | "NCName" => pure ([marked lead n.text tail], c)
      | "SubItem" => do
        let name := c.helperName parent
        let c ← production style name (some scope) n c.countHelper
        pure ([marked lead name tail], c)
      | "StringLiteral" => do
        let symbols ← literalSymbols style scope lead n.text tail
        pure (symbols, c)
      | "CharCode" => do
        let (symbol, c) ← classSymbol parent scope lead n.text tail c
        pure ([symbol], c)
      | "CharClass" => do
        let (symbol, c) ← classSymbol parent scope lead n.text tail c
        pure ([symbol], c)
      | _ => pure ([], c)
    let (more, c) ← items style parent scope (some n) ns c
    pure (symbols ++ more, c)

end

/-- Adds the rules of several productions. -/
def productions (style : Style) (c : Compiled) : List Node → Except GrammarFailure Compiled
  | [] => pure c
  | n :: ns => do
    let c ← production style (Attributes.childText n "NCName") none n c
    productions style c ns

/-- The rules that the tree of a grammar stands for. -/
def rulesOf (style : Style) (root : Node) : Except GrammarFailure (List Rule) := do
  let attrs ← Attributes.ofChildren root.children
  let c ← productions style {} (root.childrenOf "Production")
  pure <| if attrs.get? "ws" = some "implicit" then
      c.rules.map fun r =>
        if r.implicitWhitespace.isNone then { r with implicitWhitespace := some true } else r
    else c.rules

end Grammarian.Notation
