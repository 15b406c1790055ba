import Grammarian.Notation.Lexical
import Grammarian.Parse.Parser

/-!
# The attributed notation

The rules that read productions with parser controls:

    { ws=implicit }                          attributes of the whole grammar
    List  ::= "[" ~Item ("," Item)* "]"       `~` commits the sequence at Item
    Item  ::= Key | Word { simplifyWhenOneChildren=true }
    Stmt  ::= Expr ";" { pin=1, recoverUntil=Semi }
    Key   ::= 'null' { ignoreCase=true, fragment=true }

Groups have the attributes of their production. The one attribute of a whole grammar is `ws=implicit`,
which holds for the productions that do not say otherwise.
-/

namespace Grammarian.Notation

/-- The rules of the notation. -/
def attributedRules : List Rule :=
  [ rule "Grammar" [phrase ["RULE_S*", "Attributes?", "RULE_S*", "%Atomic*", "EOF"]],
    helper "%Atomic" [phrase ["Production", "RULE_S*"]],
    rule "Production"
      [phrase ["NCName", "RULE_S*", "\"::=\"", "RULE_WHITESPACE*", "%Choice", "RULE_WHITESPACE*",
        "Attributes?", "%EndOfProduction", "RULE_S*"]],
    rule "Attributes"
      [phrase ["\"\x7b\"", "Attribute", "%Attributes*", "RULE_S*", "\"\x7d\""]],
    helper "%Attributes" [phrase ["RULE_S*", "\",\"", "Attribute"]],
    rule "Attribute"
      [phrase ["RULE_S*", "NCName", "RULE_WHITESPACE*", "\"=\"", "RULE_WHITESPACE*",
        "AttributeValue"]],
    rule "AttributeValue" [phrase ["NCName"], chars "[1-9][0-9]*"],
    helper "%Choice" [phrase ["SequenceOrDifference", "%_Choice_1*"]],
    helper "%_Choice_1" [phrase ["RULE_S*", "\"|\"", "RULE_S*", "SequenceOrDifference"]],
    rule "SequenceOrDifference" [phrase ["%Item", "RULE_WHITESPACE*", "%_Item_1?"]],
    helper "%_Item_1" [phrase ["Minus", "%Item"], phrase ["%Item*"]],
    rule "Minus" [phrase ["\"-\""]],
    helper "%Item"
      [phrase ["RULE_WHITESPACE*", "PrimaryPreDecoration?", "%Primary", "PrimaryDecoration?"]],
    rule "PrimaryDecoration" [phrase ["\"?\""], phrase ["\"*\""], phrase ["\"+\""]],
    rule "PrimaryPreDecoration" [phrase ["\"&\""], phrase ["\"!\""], phrase ["\"~\""]],
    helper "%Primary"
      [phrase ["NCName"], phrase ["StringLiteral"], phrase ["CharCode"], phrase ["CharClass"],
        phrase ["SubItem"]],
    rule "SubItem" [phrase ["\"(\"", "RULE_S*", "%Choice", "RULE_S*", "\")\""]] ]
    ++ lexicalRules false

/-- The parser for grammars in this notation. -/
def attributedParser : Except (List Problem) Parser := Parser.build attributedRules {}

end Grammarian.Notation
