import Grammarian.Notation.Failure
import Grammarian.Notation.Lexical

/-!
# Classic BNF

    <syntax>     ::= <rule> | <rule> <syntax>
    <rule>       ::= "<" <rule-name> ">" "::=" <expression> <line-end>

Every rule stands on a line of its own. A term is a quoted literal or a name in angle brackets; there
are no repetitions, groups and classes, so recursion and the empty literal do all the work. A rule
`EOL` for line ends is added unless the grammar defines one.
-/

namespace Grammarian.Notation

/-- The rules of the notation. -/
def bnfRules : List Rule :=
  [ rule "syntax" [phrase ["RULE_EOL*", "rule+"]],
    rule "rule"
      [phrase ["\" \"*", "\"<\"", "rule-name", "\">\"", "\" \"*", "\"::=\"", "firstExpression",
        "otherExpression*", "\" \"*", "RULE_EOL+", "\" \"*"]],
    rule "firstExpression" [phrase ["\" \"*", "list"]],
    rule "otherExpression" [phrase ["\" \"*", "\"|\"", "\" \"*", "list"]],
    rule "RULE_EOL" [phrase ["\"\\r\""], phrase ["\"\\n\""]],
    rule "list" [phrase ["term", "\" \"*", "list"], phrase ["term"]],
    rule "term" [phrase ["literal"], phrase ["\"<\"", "rule-name", "\">\""]],
    rule "literal"
      [phrase ["'\"'", "RULE_CHARACTER1*", "'\"'"], phrase ["\"'\"", "RULE_CHARACTER2*", "\"'\""]],
    rule "RULE_CHARACTER"
      [phrase ["\" \""], phrase ["RULE_LETTER"], phrase ["RULE_DIGIT"], phrase ["RULE_SYMBOL"]],
    rule "RULE_LETTER" [chars "[A-Za-z]"],
    rule "RULE_DIGIT" [chars "[0-9]"],
    rule "RULE_SYMBOL" [chars "[-_!#$%&()*+,./:;<=>?@\\[\\\\\\]^`\x7b|\x7d~]"],
    rule "RULE_CHARACTER1" [phrase ["RULE_CHARACTER"], phrase ["\"'\""]],
    rule "RULE_CHARACTER2" [phrase ["RULE_CHARACTER"], phrase ["'\"'"]],
    rule "rule-name" [phrase ["RULE_LETTER", "RULE_CHAR*"]],
    rule "RULE_CHAR"
      [phrase ["RULE_LETTER"], phrase ["RULE_DIGIT"], phrase ["\"_\""], phrase ["\"-\""]] ]

/-- The parser for grammars in this notation. -/
def bnfParser : Except (List Problem) Parser := Parser.build bnfRules {}

/-- The symbol of a term: its literal, or else the name in it. -/
def symbolOfTerm (term : Node) : Symbol :=
  match term.firstChildOf? "literal" with
  | some n => .ofText n.text
  | none => .ofText (((term.firstChildOf? "rule-name").map (·.text)).getD "")

mutual

/-- The terms under a node in order; lists are nested, each holding a term and the list after it. -/
def termsOf : Node → List Symbol
  | ⟨_, _, _, _, children⟩ => termsAmong children

def termsAmong : List Node → List Symbol
  | [] => []
  | n :: ns =>
    if n.kind = "term" then symbolOfTerm n :: termsAmong ns
    else if n.kind = "list" then termsOf n ++ termsAmong ns
    else termsAmong ns

end

/-- The rule of a node of kind `rule`. -/
def bnfRule (n : Node) : Rule :=
  rule (((n.firstChildOf? "rule-name").map (·.text)).getD "")
    ((n.children.filter fun c => c.kind = "firstExpression" || c.kind = "otherExpression").map
      termsOf)

/-- The rule for line ends. -/
def endOfLine : Rule := rule "EOL" [phrase ["\"\\r\\n\""], phrase ["\"\\r\""], phrase ["\"\\n\""]]

/-- The rules that a tree of this notation stands for. -/
def bnfRulesOf (root : Node) : List Rule :=
  let rules := (root.childrenOf "rule").map bnfRule
  if rules.any (·.name = "EOL") then rules else rules ++ [endOfLine]

end Grammarian.Notation
