import Grammarian.Proofs.Notation.Origins
import Grammarian.Proofs.Notation.Stability

/-!
# Rules written and read

Rules that the attributed notation has read are written as a text that it reads as the same rules, as long as
every symbol survives being written. It is enough for the text to stay that literals and patterns survive, and that
no helper loses its parentheses.
-/

namespace Grammarian

namespace Notation

variable {rules again : List Rule} {n : Nat}

/-- The text of rules is read as what their lines are compiled to. -/
theorem RereadsLines.rulesOf_text (h : RereadsLines rules 0 rules again n) :
    Dialect.custom.rulesOf (grammarText .attributed rules) = .ok again := by
  have hlines : ∀ l ∈ (productionsOf rules).map (ruleLine rules), l.Legible := by
    intro l hl
    obtain ⟨r, hr, rfl⟩ := List.mem_map.1 hl
    exact h.legible r hr
  have hplain : again.map (withDefault false) = again := List.map_id' _
  rw [grammarText_eq]
  exact (readsAs_lines hlines).rulesOf_iff.2 ⟨[], _, rfl, h.reads {} rfl, hplain.symm⟩

end Notation

namespace Dialect

open Notation

variable {source : String} {rules : List Rule}

/-- **What is written of rules is read as these rules**, if every symbol survives. -/
theorem rulesOf_grammarText (h : custom.rulesOf source = .ok rules) (hsurvive : rulesSurvive rules = true) :
    custom.rulesOf (grammarText .attributed rules) = .ok rules := by
  obtain ⟨as, lines, hreads⟩ := exists_readsAs h
  obtain ⟨attrs, c, -, hcompile, hrules⟩ := hreads.rulesOf_iff.1 h
  exact (compileLines_productionsOf hreads.legible hcompile hrules hsurvive).rulesOf_text

/-- **What is written of rules is written again**, if every literal and pattern survives. -/
theorem grammarText_again (h : custom.rulesOf source = .ok rules) (hsurvive : terminalsSurvive rules = true) :
    ∃ again, custom.rulesOf (grammarText .attributed rules) = .ok again ∧
      (keepsParentheses rules = true → grammarText .attributed again = grammarText .attributed rules) := by
  obtain ⟨as, lines, hreads⟩ := exists_readsAs h
  obtain ⟨attrs, c, -, hcompile, hrules⟩ := hreads.rulesOf_iff.1 h
  obtain ⟨again, n, hagain⟩ := compileLines_again hreads.legible hcompile hrules hsurvive
  exact ⟨again, hagain.rulesOf_text, hagain.text_again⟩

/-- **The text form of rules is lossless.** Where literals and patterns survive being written, the text of rules that
were read is read again, as rules with the same text if no helper loses its parentheses. Where every symbol survives,
the rules that are read again have the same text, and the parser for them parses every input as the one for the rules
themselves does. -/
theorem lossless_of_survive {source : String} {rules : List Rule} (h : custom.rulesOf source = .ok rules) :
    ∃ text, custom.emit? rules = some text ∧
      (terminalsSurvive rules = true → ∃ again, custom.rulesOf text = .ok again ∧
        (keepsParentheses rules = true → custom.emit? again = some text)) ∧
      (rulesSurvive rules = true → ∃ again, custom.rulesOf text = .ok again ∧ custom.emit? again = some text ∧
        ∀ options p, Parser.build rules options = .ok p → ∃ p', Parser.build again options = .ok p' ∧
          ∀ input target, p'.parse input target = p.parse input target) := by
  refine ⟨grammarText .attributed rules, rfl, fun hterminals => ?_, fun hsurvive => ?_⟩
  · obtain ⟨again, hagain, htext⟩ := grammarText_again h hterminals
    exact ⟨again, hagain, fun hkeeps => congrArg some (htext hkeeps)⟩
  · exact ⟨rules, rulesOf_grammarText h hsurvive, rfl, fun _ p hp => ⟨p, hp, fun _ _ => rfl⟩⟩

/-- Groups, classes and literals with marks, and attributes of a rule and of the whole. -/
def listGrammar : String :=
  " \x7b ws=implicit \x7d\nList ::= \"<\" Word+ (\"or\" | [a-z]+)* ~\"end\" \x7b ws=implicit \x7d\nWord ::= 'a b'\n"

/-- The lines of the grammar. -/
def listLines : List Line :=
  [⟨"List".toList, [[.token "StringLiteral" [] "\"<\"".toList [], .token "NCName" [] "Word".toList ['+'],
      .group [] [[.token "StringLiteral" [] "\"or\"".toList []], [.token "CharClass" [] "[a-z]".toList ['+']]] ['*'],
      .token "StringLiteral" ['~'] "\"end\"".toList []]], [implicitWs]⟩,
    ⟨"Word".toList, [[.token "StringLiteral" [] "'a b'".toList []]], []⟩]

theorem listGrammar_reads : ReadsAs listGrammar [implicitWs] listLines :=
  @readsAs_sheetText [implicitWs] listLines (by decide +kernel) (by decide +kernel)

theorem listGrammar_rules : ∃ rules, custom.rulesOf listGrammar = .ok rules ∧ rulesSurvive rules = true := by
  rw [listGrammar_reads.rulesOf_eq]
  exact exists_ok_of_any (by decide +kernel)

/-- Every attribute, and a class with a mark whose helper skips no white space where its rule does. -/
def itemGrammar : String :=
  " \x7b ws=implicit \x7d\n" ++
  "List ::= \"[\" ~Item (\",\" Item)* \"]\" \x7b pin=1 \x7d\n" ++
  "Item ::= Word | Number \x7b simplifyWhenOneChildren=true \x7d\n" ++
  "Word ::= [a-zA-Z]+ !\"(\"\n" ++
  "Number ::= \"-\"? ([1-9] [0-9]* | \"0\") \x7b ws=explicit \x7d\n" ++
  "Skip ::= Item Rest \x7b recoverUntil=Rest \x7d\n" ++
  "Rest ::= \";\" | &EOF\n" ++
  "WS ::= [#x20#x09]+\n"

/-- The lines of the grammar. -/
def itemLines : List Line :=
  [⟨"List".toList, [[.token "StringLiteral" [] "\"[\"".toList [], .token "NCName" ['~'] "Item".toList [],
      .group [] [[.token "StringLiteral" [] "\",\"".toList [], .token "NCName" [] "Item".toList []]] ['*'],
      .token "StringLiteral" [] "\"]\"".toList []]], [("pin".toList, "1".toList)]⟩,
    ⟨"Item".toList, [[.token "NCName" [] "Word".toList []], [.token "NCName" [] "Number".toList []]],
      [("simplifyWhenOneChildren".toList, "true".toList)]⟩,
    ⟨"Word".toList, [[.token "CharClass" [] "[a-zA-Z]".toList ['+'],
      .token "StringLiteral" ['!'] "\"(\"".toList []]], []⟩,
    ⟨"Number".toList, [[.token "StringLiteral" [] "\"-\"".toList ['?'],
      .group [] [[.token "CharClass" [] "[1-9]".toList [], .token "CharClass" [] "[0-9]".toList ['*']],
        [.token "StringLiteral" [] "\"0\"".toList []]] []]], [("ws".toList, "explicit".toList)]⟩,
    ⟨"Skip".toList, [[.token "NCName" [] "Item".toList [], .token "NCName" [] "Rest".toList []]],
      [("recoverUntil".toList, "Rest".toList)]⟩,
    ⟨"Rest".toList, [[.token "StringLiteral" [] "\";\"".toList []], [.token "NCName" ['&'] "EOF".toList []]], []⟩,
    ⟨"WS".toList, [[.token "CharClass" [] "[#x20#x09]".toList ['+']]], []⟩]

theorem itemGrammar_reads : ReadsAs itemGrammar [implicitWs] itemLines := by
  have htext : itemGrammar = String.ofList (sheetText [implicitWs] itemLines) := by decide +kernel
  rw [htext]
  exact readsAs_sheetText (by decide +kernel) (by decide +kernel)

/-- A grammar that is read again as it is, and one of which only the text stays. -/
theorem listGrammar_lossless :
    (∃ rules, custom.rulesOf listGrammar = .ok rules ∧ rulesSurvive rules = true ∧
      ∃ text again, custom.emit? rules = some text ∧ custom.rulesOf text = .ok again ∧
        custom.emit? again = some text ∧
        ∀ options p, Parser.build rules options = .ok p → ∃ p', Parser.build again options = .ok p' ∧
          ∀ input target, p'.parse input target = p.parse input target) ∧
    ∃ rules, custom.rulesOf itemGrammar = .ok rules ∧ rulesSurvive rules = false ∧ terminalsSurvive rules = true ∧
      keepsParentheses rules = true ∧
      ∃ text again, custom.emit? rules = some text ∧ custom.rulesOf text = .ok again ∧
        custom.emit? again = some text := by
  constructor
  · obtain ⟨rules, hrules, hsurvive⟩ := listGrammar_rules
    obtain ⟨text, htext, -, hsame⟩ := lossless_of_survive hrules
    obtain ⟨again, hagain, htext', hparse⟩ := hsame hsurvive
    exact ⟨rules, hrules, hsurvive, text, again, htext, hagain, htext', hparse⟩
  · have hmade : ((Notation.rulesOf .attributed (grammarNode [implicitWs] itemLines)).toOption.any fun rules =>
        !rulesSurvive rules && (terminalsSurvive rules && keepsParentheses rules)) = true := by decide +kernel
    obtain ⟨rules, hrules, hboth⟩ := exists_ok_of_any hmade
    rw [← itemGrammar_reads.rulesOf_eq] at hrules
    simp only [Bool.and_eq_true, Bool.not_eq_true'] at hboth
    obtain ⟨hlost, hterminals, hkeeps⟩ := hboth
    obtain ⟨text, htext, hsame, -⟩ := lossless_of_survive hrules
    obtain ⟨again, hagain, htext'⟩ := hsame hterminals
    exact ⟨rules, hrules, hlost, hterminals, hkeeps, text, again, htext, hagain, htext' hkeeps⟩

/-- A line of literals. -/
def literalLine (texts : List String) : Line :=
  ⟨['A'], [texts.map fun text => .token "StringLiteral" [] text.toList []], []⟩

/-- A literal with a backslash: its text has one pattern for the backslash, and what is read of that text two. -/
theorem backslash_doubled : ∃ rules again, custom.rulesOf "A ::= \"\\n\"\n" = .ok rules ∧
    custom.emit? rules = some "A ::= \"\\\\\" \"n\"\n" ∧
    custom.rulesOf "A ::= \"\\\\\" \"n\"\n" = .ok again ∧
    custom.emit? again = some "A ::= \"\\\\\" \"\\\\\" \"n\"\n" := by
  have hfirst : ReadsAs "A ::= \"\\n\"\n" [] [literalLine ["\"\\n\""]] :=
    @readsAs_lines [literalLine ["\"\\n\""]] (by decide +kernel)
  have hsecond : ReadsAs "A ::= \"\\\\\" \"n\"\n" [] [literalLine ["\"\\\\\"", "\"n\""]] :=
    @readsAs_lines [literalLine ["\"\\\\\"", "\"n\""]] (by decide +kernel)
  rw [hfirst.rulesOf_eq, hsecond.rulesOf_eq]
  have hemits : ((Notation.rulesOf .attributed (grammarNode [] [literalLine ["\"\\n\""]])).toOption.any fun rules =>
      custom.emit? rules = some "A ::= \"\\\\\" \"n\"\n") = true := by decide +kernel
  have hemits' : ((Notation.rulesOf .attributed (grammarNode [] [literalLine ["\"\\\\\"", "\"n\""]])).toOption.any
      fun again => custom.emit? again = some "A ::= \"\\\\\" \"\\\\\" \"n\"\n") = true := by decide +kernel
  obtain ⟨rules, hrules, htext⟩ := exists_ok_of_any hemits
  obtain ⟨again, hagain, htext'⟩ := exists_ok_of_any hemits'
  exact ⟨rules, again, hrules, of_decide_eq_true htext, hagain, of_decide_eq_true htext'⟩

end Dialect

end Grammarian
