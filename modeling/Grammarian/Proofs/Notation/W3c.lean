import Grammarian.Proofs.Notation.Attributed
import Grammarian.Proofs.Notation.Legibility
import Grammarian.Proofs.Parse.Committed

/-!
# The W3C notation

Its rules are accepted, and lines without attributes are read as the grammar of these lines. An opening quotation
mark commits a literal, so literals are read by the steps of a rule that commits.
-/

namespace Grammarian.Notation

/-- The rules of the notation, as steps. -/
def w3cGrammarSteps : List (List Step) :=
  [[.star (.rule "RULE_S"), .star (.rule "%Atomic"), .one .endOfInput]]

/-- A table with the rules of the W3C notation. -/
structure W3c (t : Table) : Prop extends Phrasal .w3c t where
  grammar : t.declares "Grammar" false w3cGrammarSteps = true
  line : t.declares "%Atomic" true [[.one (.rule "Production"), .star (.rule "RULE_S")]] = true
  production : t.declares "Production" false
    [[.one (.rule "NCName"), .star (.rule "RULE_S"), .one (.literal [':', ':', '=']),
      .star (.rule "RULE_WHITESPACE"), .one (.rule "Choice"), .star (.rule "RULE_WHITESPACE"),
      .one (.rule "%EndOfProduction"), .star (.rule "RULE_S")]] = true

/-- A line without attributes that the notation reads as what it is. -/
@[mk_iff]
structure Line.Unattributed (l : Line) : Prop where
  name : IsName l.name
  choice : l.choice ≠ []
  items : ∀ s ∈ l.choice, s ≠ [] ∧ ∀ i ∈ s, i.Legible .w3c
  attributes : l.attributes = []

theorem Line.Unattributed.legible {l : Line} (h : l.Unattributed) : l.Legible where
  name := h.name
  choice := h.choice
  items s hs := ⟨(h.items s hs).1, fun i hi => ((h.items s hs).2 i hi).attributed⟩
  attributes := by
    rw [h.attributes]
    exact List.forall_mem_nil _

instance Line.decidableUnattributed (l : Line) : Decidable l.Unattributed :=
  decidable_of_iff _ (Line.unattributed_iff l).symm

namespace W3c

variable {t : Table} {rest : List Char} {l : Line} {lines : List Line}

/-- A line, when a line or nothing stands behind it. -/
theorem reads_production (hw : W3c t) (hl : l.Unattributed) (hrest : Clear extendsLine rest) :
    t.Reads isToken "Production" l.text rest [l.node] := by
  have htight : (Step.star (.rule "RULE_WHITESPACE")).Skims t isToken [] ('\n' :: rest) [] :=
    hw.skims_blanks nofun (clear_cons.2 (by decide))
  have hnone : (Target.rule "%_Choice_1").Answers t ('\n' :: rest) none :=
    hw.further_none htight (clear_cons.2 (by decide))
  have hnewline : Clear Phrasal.extendsSequence ('\n' :: rest) := clear_cons.2 (by decide)
  obtain ⟨taken, left, hempty, hread⟩ := hw.reads_choice (hw.readsAll_of_legible hl.choice hl.items)
    (show ∀ c ∈ [], _ from nofun) hnewline fun left hleft => by
      rw [List.suffix_nil.1 hleft]
      exact hnone
  obtain ⟨rfl, rfl⟩ := List.append_eq_nil_iff.1 hempty.symm
  rw [List.append_nil] at hread
  have hchoice : (Step.one (.rule "Choice")).Reads t isToken (Item.choiceText l.choice) ([] ++ ['\n'] ++ rest)
      (l.choice.map Item.sequenceNode) := Step.reads_one (Target.reads_rule hread)
  have hopens : Clear opensBlank (Item.choiceText l.choice ++ ([] ++ ['\n']) ++ rest) := by
    obtain ⟨c, cs, htext, hc⟩ := Phrasal.opensItem_choiceText hl.choice hl.items
    rw [htext]
    exact clear_cons.2 (not_opensBlank hc)
  have hall := hw.readAll_definition hl.name hopens (hchoice.cons (htight.cons (hw.readAll_lineEnd hrest)).skimAll)
  have hfound := Table.reads_branch hw.production (by decide) (by decide) hall.first
  rw [Line.text, Line.node, hl.attributes]
  simpa [attributesText, attributesNodes] using hfound

/-- Lines one after another are read as those of a grammar. -/
theorem readFirst_grammar (hw : W3c t) (h : ∀ l ∈ lines, l.Unattributed) :
    Step.ReadFirst t isToken w3cGrammarSteps (lines.flatMap Line.text) [] (lines.map Line.node) := by
  have hclear := clear_lines fun l hl => (h l hl).name
  have hspace : (Step.star (.rule "RULE_S")).Skims t isToken [] (lines.flatMap Line.text ++ []) [] := by
    rw [List.append_nil]
    exact hw.skims_spacing nofun (hclear.imp fun c hc => by simp [extendsLine, hc])
  have hnone : (Target.rule "Production").Answers t [] none := by
    refine Table.answers_rule_none hw.production ?_
    simp only [List.forall_mem_singleton]
    exact Step.rejected_of_none (hw.name_none (clear_nil _))
  have hlines := hw.skims_lines hw.line hnone (fun l hl => (h l hl).name) fun l hl rest hrest =>
    hw.reads_production (h l hl) hrest
  have hend : (Step.one .endOfInput).Reads t isToken [] [] [] := Step.reads_one Target.reads_endOfInput
  have hlines := hlines.cons hend.alone
  rw [List.append_nil] at hlines
  have hall := hspace.cons hlines
  simpa [w3cGrammarSteps] using hall.first

end W3c

/-! ## Literals that commit -/

section Quoted

variable {t : Table} {text rest input : List Char}

/-- The steps for one of the marks pass, and those for another one before them fail at once. -/
theorem Lexical.passAll_quoted (hl : Lexical t) (htext : IsQuoted text) (rest : List Char) :
    ∃ front alt back, quotedSteps = front ++ alt :: back ∧
      (∀ a ∈ front, ∃ s more, a = s :: more ∧ s.Fails t (text ++ rest)) ∧
      Step.ReadAll t isToken alt text rest [] := by
  obtain ⟨q, body, rfl, hq, hbody⟩ := htext
  simp only [Literal.isQuote, Bool.or_eq_true, decide_eq_true_eq] at hq
  rcases hq with rfl | rfl
  · exact ⟨[], _, _, rfl, List.forall_mem_nil _, readAll_quoted (skims_quoted hl.doubleQuoted doubleQuoted_regex hbody)⟩
  · refine ⟨[_], _, [], rfl, List.forall_mem_singleton.2 ⟨_, _, rfl, Step.fails_one ?_⟩,
      readAll_quoted (skims_quoted hl.singleQuoted singleQuoted_regex hbody)⟩
    exact Target.answers_literal_none fun d hd => by cases hd; decide

theorem Lexical.reads_committed (hl : Lexical t) (hrule : t.declaresCommitted "StringLiteral" quotedSteps = true)
    (htext : IsQuoted text) (rest : List Char) :
    t.Reads isToken "StringLiteral" text rest [.token "StringLiteral" text] := by
  obtain ⟨front, alt, back, hsteps, hfront, ds, hpasses, hshows⟩ := hl.passAll_quoted htext rest
  rw [hsteps] at hrule
  refine ⟨_, ⟨_, Table.Ends.of_passAll hrule hfront hpasses, ?_, rfl⟩, hshows.token (by decide) (by decide)⟩
  rw [Match.additions, if_neg (by simp)]

theorem committed_none (hrule : t.declaresCommitted "StringLiteral" quotedSteps = true)
    (hinput : Clear Literal.isQuote input) : (Target.rule "StringLiteral").Answers t input none := by
  refine Target.answers_rule (Table.Ends.of_fails hrule ?_)
  have hmark : ∀ {q : Char}, Literal.isQuote q = true → (Step.one (.literal [q])).Fails t input := by
    intro q hq
    refine Step.fails_one (Target.answers_literal_none fun d hd heq => ?_)
    exact absurd (hinput d hd) (by rw [heq, hq]; decide)
  simp only [quotedSteps, List.forall_mem_cons]
  exact ⟨⟨_, _, rfl, hmark (by decide)⟩, ⟨_, _, rfl, hmark (by decide)⟩, by simp⟩

end Quoted

/-! ## The table -/

/-- The table of the rules of the notation. -/
def w3cTable : Table := .ofRules w3cRules "WS"

/-- The rules that begin with another one, each before those it begins with. -/
def w3cOrder : List String :=
  ["Grammar", "%Atomic", "Production", "Choice", "%_Choice_1", "SequenceOrDifference", "%_Item_1", "Item", "%Primary",
    "%RULE_CharClass_1", "CharRange", "CharCodeRange", "%EndOfProduction", "RULE_S", "RULE_WHITESPACE"]

theorem wellOrdered_w3cRules : Table.WellOrdered w3cOrder (w3cRules.map (Rule.settled "WS")) "WS" := by
  decide +kernel

theorem w3cParser_eq : w3cParser = .ok ⟨w3cTable, {}⟩ :=
  Parser.build_eq_ok_iff.2 ⟨wellOrdered_w3cRules.build, rfl⟩

theorem lexical_w3cTable : Lexical w3cTable where
  name := by decide +kernel
  doubleQuoted := by decide +kernel
  singleQuoted := by decide +kernel
  code := by decide +kernel
  charClass := by decide +kernel
  classItem := by decide +kernel
  classChar := by decide +kernel
  charRange := by decide +kernel
  codeRange := by decide +kernel
  whitespace := by decide +kernel
  blank := by decide +kernel
  spacing := by decide +kernel
  lineEnd := by decide +kernel
  comment := ⟨[.star (.rule "%RULE_Comment_Body"), .one (.literal ['*', '/'])], by decide +kernel⟩
  endOfProduction := by decide +kernel

theorem w3c_w3cTable : W3c w3cTable where
  toLexical := lexical_w3cTable
  choice := by decide +kernel
  further := by decide +kernel
  sequence := by decide +kernel
  moreItems := by decide +kernel
  minus := by decide +kernel
  item := by decide +kernel
  tail := by decide +kernel
  lead := by decide +kernel
  primary := by decide +kernel
  group := by decide +kernel
  reads_quoted htext rest := lexical_w3cTable.reads_committed (by decide +kernel) htext rest
  quoted_none hinput := committed_none (by decide +kernel) hinput
  grammar := by decide +kernel
  line := by decide +kernel
  production := by decide +kernel

theorem start_w3cTable : w3cTable.start?.map (·.name) = some "Grammar" := by decide +kernel

/-- **Lines without attributes are read as the grammar of these lines.** -/
theorem readGrammarTree_unattributed {lines : List Line} (h : ∀ l ∈ lines, l.Unattributed) :
    ∃ root, readGrammarTree w3cParser (String.ofList (lines.flatMap Line.text)) = .ok root ∧
      root.outline isToken = grammarNode [] lines :=
  readGrammarTree_of_readFirst w3cParser_eq start_w3cTable w3c_w3cTable.grammar (by decide)
    (w3c_w3cTable.readFirst_grammar h)

end Grammarian.Notation
