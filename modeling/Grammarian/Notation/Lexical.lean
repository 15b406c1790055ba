import Grammarian.Grammar.Rule

/-!
# Lexical rules of productions

The rules for names, literals, character codes and classes, white space, comments and line ends that
the notations with productions share.
-/

namespace Grammarian.Notation

/-- A rule with its alternatives given as symbols. -/
def rule (name : String) (alternatives : List (List Symbol)) : Rule := { name, alternatives }

/-- A rule whose children take the place of its node. -/
def helper (name : String) (alternatives : List (List Symbol)) : Rule :=
  { name, alternatives, fragment := true }

/-- An alternative of symbols as grammars write them. -/
def phrase (texts : List String) : List Symbol := texts.map Symbol.ofText

/-- An alternative of one pattern. -/
def chars (source : String) : List Symbol := [.ofPattern source]

/-- The rules themselves; `pinStrings` tells whether an opening quotation mark commits a literal. -/
def lexicalRules (pinStrings : Bool) : List Rule :=
  [ rule "NCName" [chars "[a-zA-Z][a-zA-Z_0-9]*"],
    { name := "StringLiteral"
      alternatives :=
        [phrase ["'\"'", "%RULE_DoubleQuoted?", "'\"'"],
          phrase ["\"'\"", "%RULE_SingleQuoted?", "\"'\""]]
      pinAt := if pinStrings then some 1 else none },
    helper "%RULE_DoubleQuoted" [chars "[^\"]+"],
    helper "%RULE_SingleQuoted" [chars "[^']+"],
    rule "CharCode" [phrase ["\"#x\""] ++ chars "[0-9a-zA-Z]+"],
    rule "CharClass" [phrase ["'['", "'^'?", "%RULE_CharClass_1+", "\"]\""]],
    helper "%RULE_CharClass_1"
      [phrase ["CharCodeRange"], phrase ["CharRange"], phrase ["CharCode"], phrase ["RULE_Char"]],
    rule "RULE_Char"
      [chars "\\x09", chars "\\x0A", chars "\\x0D", chars "[\\x20-\\x5c]",
        chars "[\\x5e-\\uD7FF]", chars "[\\uE000-\\uFFFD]"],
    rule "CharRange" [phrase ["RULE_Char", "\"-\"", "RULE_Char"]],
    rule "CharCodeRange" [phrase ["CharCode", "\"-\"", "CharCode"]],
    rule "RULE_WHITESPACE"
      [phrase ["%RULE_WHITESPACE_CHAR*"], phrase ["Comment", "RULE_WHITESPACE*"]],
    rule "RULE_S" [phrase ["RULE_WHITESPACE", "RULE_S*"], phrase ["RULE_EOL", "RULE_S*"]],
    helper "%RULE_WHITESPACE_CHAR" [chars "\\x09", chars "\\x20"],
    rule "Comment" [phrase ["\"/*\"", "%RULE_Comment_Body*", "\"*/\""]],
    helper "%RULE_Comment_Body" [phrase ["!\"*/\""] ++ chars "(?s:.)"],
    rule "RULE_EOL" [chars "\\x0D" ++ chars "\\x0A", chars "\\x0A", chars "\\x0D"],
    helper "%EndOfProduction" [phrase ["RULE_EOL+"], phrase ["EOF"]] ]

end Grammarian.Notation
