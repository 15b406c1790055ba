import Grammarian.Proofs.Notation.Sources
import Grammarian.Proofs.Notation.W3c

/-!
# Texts that the W3C notation accepts

They are read as grammars of lines without attributes: the rules of the notation derive no other nodes, and what
they derive beyond legible items is refused when rules are made of it.
-/

namespace Grammarian.Notation

/-- A line that the rules derive. -/
structure Line.Plain (l : Line) : Prop where
  name : IsName l.name
  choice : DerivableChoice .w3c l.choice
  attributes : l.attributes = []

/-- What a rule of the W3C notation of this name derives. -/
structure W3cTold (rule : String) (text : List Char) (ns : List Node) : Prop
    extends PhraseTold .w3c rule text ns where
  production : rule = "Production" → ∃ l : Line, l.Plain ∧ ns = [l.node]
  line : rule = "%Atomic" → ∃ l : Line, l.Plain ∧ ns = [l.node]

namespace W3c

open Step

variable {t : Table} {rules : String → Language} {rule : String} {text : List Char} {ns : List Node}
  (htold : ∀ {rule text ns}, rules rule text ns → W3cTold rule text ns)

include htold

theorem silent_space {name : String} (hname : name ∈ ["RULE_WHITESPACE", "RULE_S", "RULE_EOL", "%EndOfProduction"]) :
    ((Target.rule name).language rules).Silent :=
  fun _ _ h => (htold h).space hname

theorem derives_production (hw : W3c t) (h : t.Derives isToken rules "Production" text ns) :
    ∃ l : Line, l.Plain ∧ ns = [l.node] := by
  obtain ⟨inner, rfl, alt, halt, hinner⟩ := h.branch hw.production (by decide) (by decide)
  obtain rfl := List.mem_singleton.1 halt
  obtain ⟨_, right, rfl, ⟨name, hname⟩, hright⟩ := shows_cons hinner
  have hright := shows_of_silent (silent_literal _) (shows_of_silent (silent_space htold (by decide)) hright)
  obtain ⟨_, last, rfl, ⟨_, hchoice⟩, hlast⟩ := shows_cons (shows_of_silent (silent_space htold (by decide)) hright)
  have hlast := shows_of_silent (silent_space htold (by decide)) hlast
  have hlast := shows_of_silent (silent_space htold (by decide)) hlast
  have hlast := shows_nil (shows_of_silent (silent_space htold (by decide)) hlast)
  obtain ⟨rfl, hlegible⟩ := (htold (language_one.1 hname)).name rfl
  obtain ⟨choice, hderivable, rfl⟩ := (htold (language_one.1 hchoice)).choice rfl
  refine ⟨⟨name, choice, []⟩, ⟨hlegible, hderivable, rfl⟩, ?_⟩
  rw [hlast, Line.node, attributesNodes, if_pos rfl]
  rfl

theorem derives_line (hw : W3c t) (h : t.Derives isToken rules "%Atomic" text ns) :
    ∃ l : Line, l.Plain ∧ ns = [l.node] := by
  obtain ⟨alt, halt, hinner⟩ := h.fragment hw.line
  obtain rfl := List.mem_singleton.1 halt
  obtain ⟨_, last, rfl, ⟨_, hproduction⟩, hlast⟩ := shows_cons ⟨text, hinner⟩
  have hlast := shows_nil (shows_of_silent (silent_space htold (by decide)) hlast)
  rw [hlast, List.append_nil]
  exact (htold (language_one.1 hproduction)).production rfl

/-- **The rules of the notation derive what is said of them.** -/
theorem derives (hw : W3c t) (hquoted : t.lists "StringLiteral" false quotedSteps = true)
    (h : t.Derives isToken rules rule text ns) : W3cTold rule text ns where
  toPhraseTold := Phrasal.derives (fun h => (htold h).toPhraseTold) hw.toPhrasal hquoted h
  production := by
    rintro rfl
    exact derives_production htold hw h
  line := by
    rintro rfl
    exact derives_line htold hw h

/-- The nodes of a grammar are those of its lines. -/
theorem lines_of_grammar {alt : List Step} (halt : alt ∈ w3cGrammarSteps) (h : (languageAll rules alt).Shows ns) :
    ∃ lines : List Line, (∀ l ∈ lines, l.Plain) ∧ ns = lines.map Line.node := by
  obtain rfl := List.mem_singleton.1 halt
  obtain ⟨_, last, rfl, hlines, hlast⟩ := shows_cons (shows_of_silent (silent_space htold (by decide)) h)
  have hline : ∀ {ns}, ((Target.rule "%Atomic").language rules).Shows ns → ∃ l : Line, l.Plain ∧ ns = [l.node] := by
    rintro ns ⟨text, h⟩
    exact (htold h).line rfl
  obtain ⟨lines, hplain, rfl⟩ := shows_star hline hlines
  refine ⟨lines, hplain, ?_⟩
  rw [shows_nil (shows_of_silent silent_endOfInput hlast), List.append_nil, List.map_eq_flatMap]

end W3c

theorem respects_w3cTable : w3cTable.Respects isToken W3cTold :=
  Table.respects_of_derives (by decide +kernel) fun _ _ _ h => W3c.derives id w3c_w3cTable (by decide +kernel) h

/-- The outline of a source that is read without errors. -/
theorem outline_of_readW3c {source : String} {root : Node} (h : readGrammarTree w3cParser source = .ok root) :
    ∃ lines : List Line, (∀ l ∈ lines, l.Plain) ∧ root.outline isToken = grammarNode [] lines := by
  obtain ⟨alt, halt, inner, hinner, houtline⟩ := inner_of_readGrammarTree w3cParser_eq respects_w3cTable
    start_w3cTable (by decide) w3c_w3cTable.grammar h
  obtain ⟨lines, hlines, rfl⟩ := W3c.lines_of_grammar id halt ⟨_, hinner⟩
  exact ⟨lines, hlines, houtline⟩

/-- **Every accepted source is a grammar of legible lines without attributes.** -/
theorem unattributed_of_rulesOf {source : String} {rules : List Rule} (h : Dialect.w3c.rulesOf source = .ok rules) :
    ∃ root, readGrammarTree w3cParser source = .ok root ∧ ∃ lines : List Line, (∀ l ∈ lines, l.Unattributed) ∧
      root.outline isToken = grammarNode [] lines ∧ rulesOf .w3c (grammarNode [] lines) = .ok rules := by
  obtain ⟨root, hroot, hrules⟩ := bind_eq_ok.1 h
  obtain ⟨lines, hlines, houtline⟩ := outline_of_readW3c hroot
  rw [rulesOf_eq_of_outline houtline] at hrules
  have hlegible := legible_of_rulesOf (fun l hl => (hlines l hl).choice) hrules
  exact ⟨root, hroot, lines, fun l hl => ⟨(hlines l hl).name, (hlines l hl).choice.1, hlegible l hl,
    (hlines l hl).attributes⟩, houtline, hrules⟩

/-- The rules of lines without attributes. -/
theorem w3c_rulesOf_lines {lines : List Line} (h : ∀ l ∈ lines, l.Unattributed) :
    Dialect.w3c.rulesOf (String.ofList (lines.flatMap Line.text)) = rulesOf .w3c (grammarNode [] lines) := by
  rw [Dialect.rulesOf, bind_rulesOf_eq (readGrammarTree_unattributed h)]

/-- The rules of a source, read with the table of the notation. -/
def w3cRulesRead (source : String) : Except GrammarFailure (List Rule) :=
  (readGrammarTree (.ok ⟨w3cTable, {}⟩) source).bind (rulesOf .w3c)

theorem rulesOf_w3c (source : String) : Dialect.w3c.rulesOf source = w3cRulesRead source := by
  rw [Dialect.rulesOf, w3cParser_eq, w3cRulesRead]

/-- Rules that are read of a source and pass a test. -/
theorem exists_of_w3cRulesRead {source : String} {test : List Rule → Bool}
    (h : (w3cRulesRead source).toOption.any test = true) :
    ∃ rules, Dialect.w3c.rulesOf source = .ok rules ∧ test rules = true := by
  rw [rulesOf_w3c]
  exact exists_ok_of_any h

end Grammarian.Notation
