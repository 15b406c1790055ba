import Grammarian.Proofs.Notation.Apart
import Grammarian.Proofs.Notation.Bare
import Grammarian.Proofs.Notation.BnfSources
import Grammarian.Proofs.Notation.Rereading

/-!
# Classic BNF in the other notations

Rules of classic BNF can be written by the notations with productions where their names are names there and no
literal has both quotation marks. Both notations write the same text. The W3C notation reads the rules of it, and
the attributed one the rules with their literals taken apart.
-/

namespace Grammarian

namespace Notation.Bnf

/-! ## Rules of classic BNF -/

/-- A literal, or a name without marks. -/
inductive IsTerm : Symbol → Prop
  | literal (value : String) : IsTerm (.literal value)
  | name (name : String) : IsTerm (.reference (.plain name))

/-- A rule without attributes, each of whose alternatives is terms. -/
structure IsClassic (r : Rule) : Prop where
  bare : r = rule r.name r.alternatives
  choice : r.alternatives ≠ []
  terms : ∀ a ∈ r.alternatives, a ≠ [] ∧ ∀ s ∈ a, IsTerm s

theorem Quoted.isQuoted (q : Quoted) : IsQuoted q.text := by
  refine ⟨q.mark, q.body, rfl, q.mark_quote, fun hmem => ?_⟩
  have hcontent := q.body_content _ hmem
  have hmark := q.mark_quote
  simp only [Literal.isQuote, Bool.or_eq_true, decide_eq_true_eq] at hmark
  rcases hmark with hmark | hmark
  · rw [hmark] at hcontent
    exact absurd hcontent (by decide)
  · rw [hmark] at hcontent
    exact absurd hcontent (by decide)

/-- A term compiles to a symbol of the BNF dialect. -/
theorem isTerm_symbol (term : Term) : IsTerm term.symbol := by
  cases term with
  | name n => exact .name _
  | literal q =>
    rw [Term.symbol, ofText_quoted q.isQuoted]
    exact .literal _

/-- A line compiles to a rule of the BNF dialect. -/
theorem isClassic_line (l : Line) : IsClassic l.rule where
  bare := rfl
  choice := List.cons_ne_nil _ _
  terms := by
    intro a ha
    obtain ⟨alternative, -, rfl⟩ := List.mem_map.1 ha
    refine ⟨List.cons_ne_nil _ _, fun s hs => ?_⟩
    obtain ⟨term, -, rfl⟩ := List.mem_map.1 hs
    exact isTerm_symbol term

theorem isClassic_endOfLine : IsClassic endOfLine where
  bare := rfl
  choice := List.cons_ne_nil _ _
  terms := by
    have hliterals : endOfLine.alternatives = [[.literal "\r\n"], [.literal "\r"], [.literal "\n"]] := by decide +kernel
    intro a ha
    rw [hliterals] at ha
    obtain ⟨value, rfl⟩ : ∃ value, a = [.literal value] := by
      simp only [List.mem_cons, List.not_mem_nil, or_false] at ha
      rcases ha with rfl | rfl | rfl
      all_goals exact ⟨_, rfl⟩
    exact ⟨List.cons_ne_nil _ _, List.forall_mem_singleton.2 (.literal value)⟩

/-- Whatever the BNF dialect reads are rules of its own kind. -/
theorem isClassic_of_rulesOf {source : String} {rules : List Rule} (h : Dialect.bnf.rulesOf source = .ok rules) :
    ∀ r ∈ rules, IsClassic r := by
  obtain ⟨l, ls, rfl⟩ := lines_of_rulesOf h
  refine List.forall_mem_append.2 ⟨fun r hr => ?_, fun r hr => ?_⟩
  · obtain ⟨line, -, rfl⟩ := List.mem_map.1 hr
    exact isClassic_line line
  · split at hr
    · cases hr
    · rw [List.mem_singleton.1 hr]
      exact isClassic_endOfLine

/-! ## Rules that can be written -/

/-- Whether productions can have the name. -/
def isProductionName (name : String) : Bool :=
  match name.toList with
  | c :: cs => Text.isAsciiLetter c && cs.all Notation.isNameChar
  | [] => false

/-- Whether productions can write the term: a name that they can have, or a literal without one of the quotation
marks. -/
def canWrite : Symbol → Bool
  | .literal value => !('"' ∈ value.toList && '\'' ∈ value.toList)
  | .reference r => isProductionName r.name
  | .pattern _ => false

/-- Whether productions can write the rules. -/
def translatable (rules : List Rule) : Bool :=
  rules.all fun r => isProductionName r.name && r.alternatives.all (·.all canWrite)

/-- A production name is a name of the meta grammar. -/
theorem isName_of_isProductionName {name : String} (h : isProductionName name = true) : IsName name.toList := by
  rw [isProductionName] at h
  split at h
  next c cs htext =>
    rw [Bool.and_eq_true, List.all_eq_true] at h
    exact ⟨c, cs, htext, h.1, h.2⟩
  next => cases h

variable {rules rs : List Rule} {r : Rule} {s : Symbol} {c : Compiled} {style : Style}

/-- What a term is written as. -/
inductive WrittenTerm (rules : List Rule) (s : Symbol) : Prop
  | literal (value : String) (hs : s = .literal value) (hquoted : IsQuoted (Literal.quoted value.toList))
    (hitem : ∀ style depth, written style rules depth s =
      .token "StringLiteral" [] (Literal.quoted value.toList) [])
  | name (name : String) (hs : s = .reference (.plain name)) (hname : IsName name.toList)
    (hitem : ∀ style depth, written style rules depth s = .token "NCName" [] name.toList [])

/-- A term that can be written is a written term. -/
theorem writtenTerm (rules : List Rule) (hs : IsTerm s) (hwrite : canWrite s = true) : WrittenTerm rules s := by
  cases hs with
  | literal value =>
    refine .literal value rfl (Literal.isQuoted_quoted ?_) fun style depth => written_literal depth value
    rintro ⟨hdouble, hsingle⟩
    simp [canWrite, hdouble, hsingle] at hwrite
  | name name =>
    have hname : IsName name.toList := isName_of_isProductionName hwrite
    have hhelper : isHelperName name = false := by
      have hnot := (Lexeme.name hname).not_helper
      rwa [String.ofList_toList] at hnot
    have hliteral : (Reference.plain name).isLiteral = false := by
      have hnot := isLiteral_of_isName hname [] []
      rwa [String.ofList_toList] at hnot
    refine .name name rfl hname fun style depth => ?_
    have hwritten : written style rules depth (.reference (.plain name)) = _ :=
      written_of_none (helperOf?_eq_none hhelper) depth
    rw [hwritten, hliteral]
    rfl

namespace WrittenTerm

/-- A written term is legible. -/
theorem legible (h : WrittenTerm rules s) (depth : Nat) : (written .w3c rules depth s).Legible .w3c := by
  cases h with
  | literal value hs hquoted hitem =>
    rw [hitem]
    exact .token (.quoted hquoted) (.inl rfl) (.inl rfl)
  | name name hs hname hitem =>
    rw [hitem]
    exact .token (.name hname) (.inl rfl) (.inl rfl)

/-- A term is read as it is. -/
theorem symbols (h : WrittenTerm rules s) (depth : Nat) (parent : String) (c : Compiled) :
    (written .w3c rules depth s).symbols .w3c parent [] c = .ok ([s], c) := by
  cases h with
  | literal value hs hquoted hitem =>
    rw [hitem, hs]
    exact symbols_quote value
  | name name hs hname hitem =>
    have hmarked := marked_name (.inl rfl) (.inl rfl) hname.bare (isLiteral_of_isName hname [] [])
    rw [String.ofList_toList] at hmarked
    rw [hitem, hs]
    simp only [Item.symbols, tokenSymbols, String.ofList_toList, hmarked]
    rfl

theorem innerLiterals (h : WrittenTerm rules s) (depth : Nat) : (written .w3c rules depth s).innerLiterals = [] := by
  cases h with
  | literal value hs hquoted hitem =>
    rw [hitem]
    rfl
  | name name hs hname hitem =>
    rw [hitem]
    rfl

/-- The literals that a written term shows are quotes. -/
theorem ownLiterals (h : WrittenTerm rules s) (depth : Nat) :
    ∀ text ∈ (written .w3c rules depth s).ownLiterals, IsQuote text := by
  cases h with
  | literal value hs hquoted hitem =>
    rw [hitem, Item.ownLiterals, if_pos ⟨rfl, rfl, rfl⟩, List.forall_mem_singleton]
    exact ⟨value, rfl, hquoted⟩
  | name name hs hname hitem =>
    rw [hitem, Item.ownLiterals, if_neg (by decide)]
    exact List.forall_mem_nil _

end WrittenTerm

/-! ## The lines -/

/-- What is written of the symbols of an alternative is read as these symbols. -/
theorem sequenceSymbols_written (depth : Nat) (parent : String) (c : Compiled) {a : List Symbol}
    (ha : ∀ s ∈ a, WrittenTerm rules s) :
    Item.sequenceSymbols .w3c parent [] (a.map (written .w3c rules depth)) c = .ok (a, c) := by
  induction a with
  | nil => rfl
  | cons s a ih =>
    rw [List.forall_mem_cons] at ha
    exact sequenceSymbols_cons.2 ⟨[s], c, a, ha.1.symbols depth parent c, ih ha.2, rfl⟩

/-- Written alternatives compile to the alternatives, without helpers. -/
theorem choiceSymbols_written (depth : Nat) (parent : String) (c : Compiled) {alternatives : List (List Symbol)}
    (halternatives : ∀ a ∈ alternatives, ∀ s ∈ a, WrittenTerm rules s) :
    Item.choiceSymbols .w3c parent [] (alternatives.map (·.map (written .w3c rules depth))) c =
      .ok (alternatives, c) := by
  induction alternatives with
  | nil => rfl
  | cons a alternatives ih =>
    rw [List.forall_mem_cons] at halternatives
    exact choiceSymbols_cons.2
      ⟨a, c, alternatives, sequenceSymbols_written depth parent c halternatives.1, ih halternatives.2, rfl⟩

/-- A rule of classic BNF that can be written. -/
structure Translatable (rules : List Rule) (r : Rule) : Prop extends IsClassic r where
  name : IsName r.name.toList
  written : ∀ a ∈ r.alternatives, ∀ s ∈ a, WrittenTerm rules s

/-- The test over all rules says that each can be translated. -/
theorem translatable_of_mem (h : translatable rules = true) (hclassic : ∀ r ∈ rules, IsClassic r) :
    ∀ r ∈ rules, Translatable rules r := by
  intro r hr
  have hrule := List.all_eq_true.1 h r hr
  rw [Bool.and_eq_true, List.all_eq_true] at hrule
  refine ⟨hclassic r hr, isName_of_isProductionName hrule.1, fun a ha s hs => ?_⟩
  exact writtenTerm rules (((hclassic r hr).terms a ha).2 s hs) (List.all_eq_true.1 (hrule.2 a ha) s hs)

/-- A rule of the BNF dialect has no attributes and no pins. -/
theorem IsClassic.isPlain (h : IsClassic r) : r.IsPlain ∧ CommitsNowhere r := by
  refine ⟨?_, fun a ha s hs => ?_⟩
  · rw [h.bare]
    exact ⟨nofun, rfl, rfl, rfl⟩
  · cases (h.terms a ha).2 s hs with
    | literal value => rfl
    | name name => rfl

namespace Translatable

theorem not_helper (h : Translatable rules r) : isHelperName r.name = false := by
  have hnot := (Lexeme.name h.name).not_helper
  rwa [String.ofList_toList] at hnot

/-- A bare line has no attributes. -/
theorem unattributed (h : Translatable rules r) : (bareLine rules r).Unattributed where
  name := h.name
  choice := by simpa [bareLine] using h.choice
  items := legible_alternatives (fun a ha => (h.terms a ha).1) fun a ha s hs => (h.written a ha s hs).legible _
  attributes := rfl

/-- The line of a rule is read as the rule. -/
theorem compile (h : Translatable rules r) (c : Compiled) : (bareLine rules r).compile .w3c c = .ok (c.push r) := by
  have hchoice := choiceSymbols_written rules.length r.name c h.written
  have hname : String.ofList (bareLine rules r).name = r.name := String.ofList_toList
  refine (compile_unattributed rfl (hname ▸ h.not_helper)).2 ⟨r.alternatives, c, ?_, ?_⟩
  · rw [hname]
    exact hchoice
  · rw [hname]
    exact congrArg c.push h.bare

/-- The attributed notation writes the same line. -/
theorem ruleLine_eq (h : Translatable rules r) : ruleLine rules r = bareLine rules r := by
  have hattributes : ruleAttributes r = [] := by
    rw [h.bare]
    rfl
  rw [ruleLine, bareLine, hattributes, Notation.Line.mk.injEq]
  refine ⟨rfl, List.map_congr_left fun a ha => List.map_congr_left fun s hs => ?_, rfl⟩
  cases h.written a ha s hs with
  | literal value hs hquoted hitem => rw [hitem, hitem]
  | name name hs hname hitem => rw [hitem, hitem]

/-- The literals of a bare line are quotes. -/
theorem literals (h : Translatable rules r) : ∀ text ∈ (bareLine rules r).literals, IsQuote text := by
  have hitems : ∀ s ∈ (bareLine rules r).choice, ∀ i ∈ s,
      i.innerLiterals = [] ∧ ∀ text ∈ i.ownLiterals, IsQuote text := by
    intro s hs i hi
    obtain ⟨a, ha, rfl⟩ := List.mem_map.1 hs
    obtain ⟨symbol, hsymbol, rfl⟩ := List.mem_map.1 hi
    have hwritten := h.written a ha symbol hsymbol
    exact ⟨hwritten.innerLiterals _, hwritten.ownLiterals _⟩
  rw [Line.literals, Item.innerChoice_eq_nil fun s hs i hi => (hitems s hs i hi).1, List.nil_append]
  intro text htext
  obtain ⟨s, hs, htext⟩ := List.mem_flatMap.1 htext
  obtain ⟨i, hi, htext⟩ := List.mem_flatMap.1 htext
  exact (hitems s hs i hi).2 text htext

end Translatable

/-- The lines of rules that can be translated compile to these rules. -/
theorem compileLines_bareLine (h : ∀ r ∈ rs, Translatable rules r) (c : Compiled) :
    compileLines .w3c c (rs.map (bareLine rules)) = .ok ⟨c.rules ++ rs, c.helpers⟩ := by
  induction rs generalizing c with
  | nil =>
    rw [List.append_nil]
    rfl
  | cons r rs ih =>
    rw [List.forall_mem_cons] at h
    refine compileLines_cons.2 ⟨c.push r, h.1.compile c, (ih h.2 _).trans ?_⟩
    rw [Compiled.push, List.append_assoc]
    rfl

/-- The lines of rules are read as the rules. -/
theorem rulesOf_bareLines (h : ∀ r ∈ rules, Translatable rules r) :
    rulesOf .w3c (grammarNode [] (rules.map (bareLine rules))) = .ok rules := by
  refine (rulesOf_bare fun l hl s hs => ?_).2 ⟨_, compileLines_bareLine h {}⟩
  obtain ⟨r, hr, rfl⟩ := List.mem_map.1 hl
  exact ((h r hr).unattributed.items s hs).2

theorem unattributed_bareLines (h : ∀ r ∈ rules, Translatable rules r) :
    ∀ l ∈ rules.map (bareLine rules), l.Unattributed := by
  intro l hl
  obtain ⟨r, hr, rfl⟩ := List.mem_map.1 hl
  exact (h r hr).unattributed

/-- Both notations write the text of the lines. -/
theorem grammarText_bareLines (h : ∀ r ∈ rules, Translatable rules r) (style : Style) :
    grammarText style rules = String.ofList ((rules.map (bareLine rules)).flatMap Notation.Line.text) := by
  have hproductions : productionsOf rules = rules := by
    refine List.filter_eq_self.2 fun r hr => ?_
    rw [(h r hr).not_helper]
    rfl
  cases style with
  | w3c => rw [grammarText_bare fun r hr => (h r hr).isPlain.1.strict, hproductions]
  | attributed => rw [grammarText_eq, hproductions, List.map_congr_left fun r hr => (h r hr).ruleLine_eq]

end Notation.Bnf

namespace Dialect

open Notation Notation.Bnf

variable {source : String} {rules : List Rule}

/-- The W3C notation reads the rules again. -/
theorem w3c_rulesOf_grammarText (h : ∀ r ∈ rules, Translatable rules r) :
    w3c.rulesOf (grammarText .w3c rules) = .ok rules := by
  rw [grammarText_bareLines h, w3c_rulesOf_lines (unattributed_bareLines h)]
  exact rulesOf_bareLines h

/-- The attributed notation reads the rules with their literals taken apart. -/
theorem custom_rulesOf_grammarText (h : ∀ r ∈ rules, Translatable rules r) :
    ∃ texts rules', custom.rulesOf (grammarText .attributed rules) = .ok rules' ∧ RulesApart texts rules rules' ∧
      ∀ text ∈ texts, IsQuote text := by
  have hlines := unattributed_bareLines h
  obtain ⟨rules', hrules', hapart⟩ := rulesOf_apart hlines (rulesOf_bareLines h)
  refine ⟨_, rules', ?_, hapart, fun text htext => ?_⟩
  · rw [grammarText_bareLines h, (readsAs_lines fun l hl => (hlines l hl).legible).rulesOf_eq]
    exact hrules'
  · obtain ⟨l, hl, htext⟩ := List.mem_flatMap.1 htext
    obtain ⟨r, hr, rfl⟩ := List.mem_map.1 hl
    exact (h r hr).literals text htext

/-- **What becomes of classic BNF in the other notations.** Where productions can write its rules, the text of the
rules is accepted. From every rule the W3C notation parses as the rules did; the attributed one does so from the
rules that only reach literals that mean the same taken apart. -/
theorem translated_of_translatable (h : bnf.rulesOf source = .ok rules) (htranslatable : translatable rules = true)
    {d : Dialect} (hd : d ≠ bnf) :
    ∃ text again, d.emit? rules = some text ∧ d.rulesOf text = .ok again ∧
      ∀ options p, Parser.build rules options = .ok p → ∃ p', Parser.build again options = .ok p' ∧
        ∀ names, d = w3c ∨ keptAmong rules names = true → ∀ name ∈ names, ∀ input,
          p'.parse input (some name) = p.parse input (some name) := by
  have hrules := translatable_of_mem htranslatable (isClassic_of_rulesOf h)
  cases d with
  | bnf => exact absurd rfl hd
  | w3c =>
    refine ⟨_, rules, rfl, w3c_rulesOf_grammarText hrules, fun options p hp => ⟨p, hp, ?_⟩⟩
    exact fun names _ name _ input => rfl
  | custom =>
    obtain ⟨texts, rules', hrules', hapart, htexts⟩ := custom_rulesOf_grammarText hrules
    refine ⟨_, rules', rfl, hrules', fun options p hp => ?_⟩
    obtain ⟨p', hp', hparse⟩ := parses_of_rulesApart hapart htexts (fun r hr => (hrules r hr).isPlain) hp
    exact ⟨p', hp', fun names hkept => hparse names (hkept.resolve_left Dialect.noConfusion)⟩

/-- Quotation marks, a name, and a literal that stays whole. -/
def pairGrammar : String := "<a> ::= \"it's\" <b> | '\"'\n<b> ::= 'x y' | <a>\n"

def pairRules : List Rule :=
  [rule "a" [[.literal "it's", .reference (.plain "b")], [.literal "\""]],
    rule "b" [[.literal "x y"], [.reference (.plain "a")]], endOfLine]

/-- The rules of a source of classic BNF, read with the table of the notation. -/
def bnfRulesRead (source : String) : Except GrammarFailure (List Rule) :=
  (readGrammarTree (.ok ⟨bnfTable, {}⟩) source).map bnfRulesOf

/-- Rules that are read of a source and pass a test. -/
theorem exists_of_bnfRulesRead {source : String} {test : List Rule → Bool}
    (h : (bnfRulesRead source).toOption.any test = true) :
    ∃ rules, bnf.rulesOf source = .ok rules ∧ test rules = true := by
  rw [rulesOf, bnfParser_eq]
  exact exists_ok_of_any h

/-- A grammar in BNF, emitted for the custom dialect and compiled again, parses alike. -/
theorem pairGrammar_translated : bnf.rulesOf pairGrammar = .ok pairRules ∧ translatable pairRules = true ∧
    ∃ text again, custom.emit? pairRules = some text ∧ custom.rulesOf text = .ok again ∧
      ∃ p p', Parser.build pairRules {} = .ok p ∧ Parser.build again {} = .ok p' ∧
        ∀ name ∈ ["a", "b"], ∀ input, p'.parse input (some name) = p.parse input (some name) := by
  have hread : ((bnfRulesRead pairGrammar).toOption.any (· = pairRules)) = true := by decide +kernel
  obtain ⟨rules, hrules, heq⟩ := exists_of_bnfRulesRead hread
  obtain rfl := of_decide_eq_true heq
  have hordered : Table.WellOrdered ["b", "a"] (pairRules.map (Rule.settled "WS")) "WS" := by
    decide +kernel
  have hbuild : Parser.build pairRules {} = .ok ⟨.ofRules pairRules "WS", {}⟩ :=
    Parser.build_eq_ok_iff.2 ⟨hordered.build, rfl⟩
  have htranslatable : translatable pairRules = true := by decide +kernel
  obtain ⟨text, again, htext, hagain, hparsers⟩ :=
    translated_of_translatable hrules htranslatable (d := custom) Dialect.noConfusion
  obtain ⟨p', hp', hparse⟩ := hparsers _ _ hbuild
  exact ⟨hrules, htranslatable, text, again, htext, hagain, _, p', hbuild, hp',
    hparse ["a", "b"] (.inr (by decide +kernel))⟩

/-- Productions have no hyphens in their names, and classic BNF has. -/
theorem hyphen_not_read : ∃ rules text, bnf.rulesOf "<a-b> ::= \"x\"\n" = .ok rules ∧ w3c.emit? rules = some text ∧
    ∀ again, w3c.rulesOf text ≠ .ok again := by
  have hread : ((bnfRulesRead "<a-b> ::= \"x\"\n").toOption.any fun rules => grammarText .w3c rules =
      "a-b ::= \"x\"\nEOL ::= \"\\r\\n\" | \"\\r\" | \"\\n\"\n") = true := by decide +kernel
  obtain ⟨rules, hrules, htext⟩ := exists_of_bnfRulesRead hread
  have hnone : (w3cRulesRead "a-b ::= \"x\"\nEOL ::= \"\\r\\n\" | \"\\r\" | \"\\n\"\n").toOption.isNone = true := by
    decide +kernel
  refine ⟨rules, _, hrules, rfl, fun again hagain => ?_⟩
  rw [of_decide_eq_true htext, rulesOf_w3c] at hagain
  rw [hagain] at hnone
  cases hnone

end Dialect

end Grammarian
