import Grammarian.Notation.Lexical
import Grammarian.Parse.Parser

/-!
# The W3C notation

The rules that read grammars in the notation of the XML recommendation:

    Name     ::= Other "literal" 'literal'
    Choice   ::= A | B C
    Repeat   ::= A? B* C+ (D | E)*
    Chars    ::= [a-zA-Z] [^"] #x20 [#x30-#x39]
    Peek     ::= "true" ![a-z] | Name &"("
    /* comments anywhere white space is allowed */

A production stands on a line of its own. A difference `A - B` is read, and refused afterwards.
-/

namespace Grammarian.Notation

/-- The rules of the notation. -/
def w3cRules : List Rule :=
  [ rule "Grammar" [phrase ["RULE_S*", "%Atomic*", "EOF"]],
    helper "%Atomic" [phrase ["Production", "RULE_S*"]],
    rule "Production"
      [phrase ["NCName", "RULE_S*", "\"::=\"", "RULE_WHITESPACE*", "Choice", "RULE_WHITESPACE*",
        "%EndOfProduction", "RULE_S*"]],
    helper "Choice" [phrase ["SequenceOrDifference", "%_Choice_1*"]],
    helper "%_Choice_1"
      [phrase ["RULE_WHITESPACE*", "\"|\"", "RULE_WHITESPACE*", "SequenceOrDifference"]],
    rule "SequenceOrDifference" [phrase ["Item", "RULE_WHITESPACE*", "%_Item_1?"]],
    helper "%_Item_1" [phrase ["Minus", "Item"], phrase ["Item*"]],
    rule "Minus" [phrase ["\"-\""]],
    helper "Item"
      [phrase ["RULE_WHITESPACE*", "PrimaryPreDecoration?", "%Primary", "PrimaryDecoration?"]],
    rule "PrimaryDecoration" [phrase ["\"?\""], phrase ["\"*\""], phrase ["\"+\""]],
    rule "PrimaryPreDecoration" [phrase ["\"&\""], phrase ["\"!\""]],
    helper "%Primary"
      [phrase ["NCName"], phrase ["StringLiteral"], phrase ["CharCode"], phrase ["CharClass"],
        phrase ["SubItem"]],
    rule "SubItem"
      [phrase ["\"(\"", "RULE_WHITESPACE*", "Choice", "RULE_WHITESPACE*", "\")\""]] ]
    ++ lexicalRules true

/-- The parser for grammars in this notation. -/
def w3cParser : Except (List Problem) Parser := Parser.build w3cRules {}

end Grammarian.Notation
