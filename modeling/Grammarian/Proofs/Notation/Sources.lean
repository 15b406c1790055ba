import Grammarian.Proofs.Notation.Derivations
import Grammarian.Proofs.Notation.Helpers

/-!
# Texts that are accepted

Every text that the attributed notation accepts is read as a grammar of legible lines: its rules derive no other
nodes, and what they derive beyond legible items is refused when rules are made of it.
-/

namespace Grammarian.Notation

/-! ## Lines -/

/-- A line that the rules derive. -/
structure Line.Derivable (l : Line) : Prop where
  name : IsName l.name
  choice : DerivableChoice .attributed l.choice
  attributes : ∀ a ∈ l.attributes, LegibleAttribute a

/-- What a rule of the attributed notation of this name derives. -/
structure LineTold (rule : String) (text : List Char) (ns : List Node) : Prop
    extends PhraseTold .attributed rule text ns where
  value : rule = "AttributeValue" → ns = [.token "AttributeValue" text] ∧ (IsName text ∨ IsNumber text)
  oneAttribute : rule = "Attribute" → ∃ a, LegibleAttribute a ∧ ns = [attributeNode a]
  nextAttribute : rule = "%Attributes" → ∃ a, LegibleAttribute a ∧ ns = [attributeNode a]
  attributes : rule = "Attributes" → ∃ as, (∀ a ∈ as, LegibleAttribute a) ∧ ns = attributesNodes as
  production : rule = "Production" → ∃ l : Line, l.Derivable ∧ ns = [l.node]
  line : rule = "%Atomic" → ∃ l : Line, l.Derivable ∧ ns = [l.node]

namespace Attributed

open Step

variable {t : Table} {rules : String → Language} {rule : String} {text : List Char} {ns : List Node}
  (htold : ∀ {rule text ns}, rules rule text ns → LineTold rule text ns)

/-- What derives as the value of an attribute is a name or a number. -/
theorem derives_value (ha : Attributed t) (h : t.Derives isToken rules "AttributeValue" text ns)
    (htold : ∀ {rule text ns}, rules rule text ns → LineTold rule text ns) :
    ns = [.token "AttributeValue" text] ∧ (IsName text ∨ IsNumber text) := by
  obtain ⟨rfl, alt, halt, inner, hinner⟩ := h.token ha.value (by decide) (by decide)
  refine ⟨rfl, ?_⟩
  rcases List.mem_pair.1 halt with rfl | rfl
  · exact Or.inl ((htold (language_one.1 (languageAll_singleton hinner))).name rfl).2
  · obtain ⟨-, rest, hmatch⟩ := language_one.1 (languageAll_singleton hinner)
    obtain ⟨c, cs, rfl, hc, hcs⟩ := Pattern.exists_cons_of_match? number_regex hmatch
    refine Or.inr ⟨c, cs, rfl, ?_, fun d hd => ?_⟩
    · simpa [Pattern.CharSet.contains] using hc
    · simpa [Pattern.CharSet.contains, Text.isAsciiDigit] using hcs d hd

include htold

/-- White space and ends of lines leave no nodes. -/
theorem silent_space {name : String} (hname : name ∈ ["RULE_WHITESPACE", "RULE_S", "RULE_EOL", "%EndOfProduction"]) :
    ((Target.rule name).language rules).Silent :=
  fun _ _ h => (htold h).space hname

/-- An attribute derives as one that is legible. -/
theorem derives_attribute (ha : Attributed t) (h : t.Derives isToken rules "Attribute" text ns) :
    ∃ a, LegibleAttribute a ∧ ns = [attributeNode a] := by
  obtain ⟨inner, rfl, alt, halt, hinner⟩ := h.branch ha.oneAttribute (by decide) (by decide)
  obtain rfl := List.mem_singleton.1 halt
  have hinner := shows_of_silent (silent_space htold (by decide)) hinner
  obtain ⟨ms, ks, rfl, ⟨name, hname⟩, hrest⟩ := shows_cons hinner
  have hrest := shows_of_silent (silent_literal _) (shows_of_silent (silent_space htold (by decide)) hrest)
  have hrest := shows_of_silent (silent_space htold (by decide)) hrest
  obtain ⟨value, hvalue⟩ := shows_one (shows_singleton hrest)
  obtain ⟨rfl, hlegible⟩ := (htold (language_one.1 hname)).name rfl
  obtain ⟨rfl, hlegible'⟩ := (htold hvalue).value rfl
  exact ⟨(name, value), ⟨hlegible, hlegible'⟩, rfl⟩

theorem derives_nextAttribute (ha : Attributed t) (h : t.Derives isToken rules "%Attributes" text ns) :
    ∃ a, LegibleAttribute a ∧ ns = [attributeNode a] := by
  obtain ⟨alt, halt, hinner⟩ := h.fragment ha.nextAttribute
  obtain rfl := List.mem_singleton.1 halt
  have hrest := shows_of_silent (silent_space htold (by decide)) ⟨text, hinner⟩
  obtain ⟨_, hlast⟩ := shows_one (shows_singleton (shows_of_silent (silent_literal _) hrest))
  exact (htold hlast).oneAttribute rfl

/-- Attributes derive as legible ones. -/
theorem derives_attributes (ha : Attributed t) (h : t.Derives isToken rules "Attributes" text ns) :
    ∃ as, (∀ a ∈ as, LegibleAttribute a) ∧ ns = attributesNodes as := by
  obtain ⟨inner, rfl, alt, halt, hinner⟩ := h.branch ha.attributes (by decide) (by decide)
  obtain rfl := List.mem_singleton.1 halt
  obtain ⟨ms, ks, rfl, ⟨_, hfirst⟩, hrest⟩ := shows_cons (shows_of_silent (silent_literal _) hinner)
  obtain ⟨more, last, rfl, hmore, hlast⟩ := shows_cons hrest
  have hlast := shows_of_silent (silent_literal _) (shows_of_silent (silent_space htold (by decide)) hlast)
  obtain ⟨first, hlegible, rfl⟩ := (htold (language_one.1 hfirst)).oneAttribute rfl
  have hnext : ∀ {ns}, ((Target.rule "%Attributes").language rules).Shows ns →
      ∃ a, LegibleAttribute a ∧ ns = [attributeNode a] := by
    rintro ns ⟨text, h⟩
    exact (htold h).nextAttribute rfl
  obtain ⟨others, hothers, rfl⟩ := shows_star hnext hmore
  refine ⟨first :: others, List.forall_mem_cons.2 ⟨hlegible, hothers⟩, ?_⟩
  rw [attributesNodes, if_neg (List.cons_ne_nil _ _), List.map_cons, shows_nil hlast, List.append_nil,
    ← List.map_eq_flatMap]
  rfl

/-- Where attributes may be left out, there are some or none. -/
theorem attributes_of_shows (h : ((Step.optional (.rule "Attributes")).language rules false).Shows ns) :
    ∃ as, (∀ a ∈ as, LegibleAttribute a) ∧ ns = attributesNodes as := by
  rcases shows_optional h with rfl | ⟨text, h⟩
  · exact ⟨[], nofun, rfl⟩
  · exact (htold h).attributes rfl

/-- A production derives as the node of a line. -/
theorem derives_production (ha : Attributed t) (h : t.Derives isToken rules "Production" text ns) :
    ∃ l : Line, l.Derivable ∧ ns = [l.node] := by
  obtain ⟨inner, rfl, alt, halt, hinner⟩ := h.branch ha.production (by decide) (by decide)
  obtain rfl := List.mem_singleton.1 halt
  obtain ⟨_, right, rfl, ⟨name, hname⟩, hright⟩ := shows_cons hinner
  have hright := shows_of_silent (silent_literal _) (shows_of_silent (silent_space htold (by decide)) hright)
  obtain ⟨_, braces, rfl, ⟨_, hchoice⟩, hbraces⟩ :=
    shows_cons (shows_of_silent (silent_space htold (by decide)) hright)
  obtain ⟨_, last, rfl, hattributes, hlast⟩ :=
    shows_cons (shows_of_silent (silent_space htold (by decide)) hbraces)
  have hlast := shows_of_silent (silent_space htold (by decide)) hlast
  have hlast := shows_nil (shows_of_silent (silent_space htold (by decide)) hlast)
  obtain ⟨rfl, hlegible⟩ := (htold (language_one.1 hname)).name rfl
  obtain ⟨choice, hderivable, rfl⟩ := (htold (language_one.1 hchoice)).choice rfl
  obtain ⟨as, has, rfl⟩ := attributes_of_shows htold hattributes
  refine ⟨⟨name, choice, as⟩, ⟨hlegible, hderivable, has⟩, ?_⟩
  rw [hlast, List.append_nil]
  rfl

/-- A line derives as the node of one. -/
theorem derives_line (ha : Attributed t) (h : t.Derives isToken rules "%Atomic" text ns) :
    ∃ l : Line, l.Derivable ∧ ns = [l.node] := by
  obtain ⟨alt, halt, hinner⟩ := h.fragment ha.line
  obtain rfl := List.mem_singleton.1 halt
  obtain ⟨_, last, rfl, ⟨_, hproduction⟩, hlast⟩ := shows_cons ⟨text, hinner⟩
  have hlast := shows_nil (shows_of_silent (silent_space htold (by decide)) hlast)
  rw [hlast, List.append_nil]
  exact (htold (language_one.1 hproduction)).production rfl

/-- **The rules of the notation derive what is said of them.** -/
theorem derives (ha : Attributed t) (hquoted : t.lists "StringLiteral" false quotedSteps = true)
    (h : t.Derives isToken rules rule text ns) : LineTold rule text ns where
  toPhraseTold := Phrasal.derives (fun h => (htold h).toPhraseTold) ha.toPhrasal hquoted h
  value := by
    rintro rfl
    exact ha.derives_value h htold
  oneAttribute := by
    rintro rfl
    exact derives_attribute htold ha h
  nextAttribute := by
    rintro rfl
    exact derives_nextAttribute htold ha h
  attributes := by
    rintro rfl
    exact derives_attributes htold ha h
  production := by
    rintro rfl
    exact derives_production htold ha h
  line := by
    rintro rfl
    exact derives_line htold ha h

/-- The nodes of a grammar are those of its attributes and of its lines. -/
theorem lines_of_grammar {alt : List Step} (halt : alt ∈ grammarSteps) (h : (languageAll rules alt).Shows ns) :
    ∃ (as : List (List Char × List Char)) (lines : List Line),
      (∀ a ∈ as, LegibleAttribute a) ∧ (∀ l ∈ lines, l.Derivable) ∧
      ns = attributesNodes as ++ lines.map Line.node := by
  obtain rfl := List.mem_singleton.1 halt
  obtain ⟨_, rest, rfl, hattributes, hrest⟩ := shows_cons (shows_of_silent (silent_space htold (by decide)) h)
  obtain ⟨_, last, rfl, hlines, hlast⟩ := shows_cons (shows_of_silent (silent_space htold (by decide)) hrest)
  obtain ⟨as, has, rfl⟩ := attributes_of_shows htold hattributes
  have hline : ∀ {ns}, ((Target.rule "%Atomic").language rules).Shows ns →
      ∃ l : Line, l.Derivable ∧ ns = [l.node] := by
    rintro ns ⟨text, h⟩
    exact (htold h).line rfl
  obtain ⟨lines, hderivable, rfl⟩ := shows_star hline hlines
  refine ⟨as, lines, has, hderivable, ?_⟩
  rw [shows_nil (shows_of_silent silent_endOfInput hlast), List.append_nil, List.map_eq_flatMap]

end Attributed

/-! ## Sources -/

/-- The custom meta grammar tells of its rules what lines are. -/
theorem respects_attributedTable : attributedTable.Respects isToken LineTold :=
  Table.respects_of_derives (by decide +kernel) fun _ _ _ h =>
    Attributed.derives id attributed_attributedTable (by decide +kernel) h

/-- The outline of a source that is read without errors. -/
theorem outline_of_readGrammarTree {source : String} {root : Node}
    (h : readGrammarTree attributedParser source = .ok root) :
    ∃ (as : List (List Char × List Char)) (lines : List Line),
      (∀ a ∈ as, LegibleAttribute a) ∧ (∀ l ∈ lines, l.Derivable) ∧
      root.outline isToken = grammarNode as lines := by
  obtain ⟨alt, halt, inner, hinner, houtline⟩ := inner_of_readGrammarTree attributedParser_eq
    respects_attributedTable start_attributedTable (by decide) attributed_attributedTable.grammar h
  obtain ⟨as, lines, has, hlines, rfl⟩ := Attributed.lines_of_grammar id halt ⟨_, hinner⟩
  exact ⟨as, lines, has, hlines, houtline⟩

/-! ## What is refused -/

section Refused

variable {style : Style} {n : Node} {ns : List Node} {choice : List (List Item)} {c c' : Compiled}

/-- Symbols are made of these nodes of an alternative. -/
def ItemsMade (style : Style) (ns : List Node) : Prop :=
  ∃ parent scope previous c r, items style parent scope previous ns c = .ok r

theorem ItemsMade.tail (h : ItemsMade style (n :: ns)) : ItemsMade style ns := by
  obtain ⟨parent, scope, previous, c, r, h⟩ := h
  have hrest : ∀ {symbols : List Symbol} {c' : Compiled},
      (items style parent scope (some n) ns c' >>= fun p => pure (symbols ++ p.1, p.2)) = .ok r →
        ItemsMade style ns := by
    intro symbols c' hmore
    obtain ⟨r', hmore, -⟩ := bind_eq_ok.1 hmore
    exact ⟨parent, scope, some n, c', r', hmore⟩
  rw [items] at h
  split at h
  next => cases h
  next => exact hrest h
  next =>
    obtain ⟨c', -, h⟩ := bind_eq_ok.1 h
    exact hrest h
  next =>
    obtain ⟨symbols, -, h⟩ := bind_eq_ok.1 h
    exact hrest h
  next =>
    obtain ⟨⟨symbol, c'⟩, -, h⟩ := bind_eq_ok.1 h
    exact hrest h
  next =>
    obtain ⟨⟨symbol, c'⟩, -, h⟩ := bind_eq_ok.1 h
    exact hrest h
  next => exact hrest h

theorem ItemsMade.of_append {ms : List Node} (h : ItemsMade style (ms ++ ns)) : ItemsMade style ns := by
  induction ms with
  | nil => exact h
  | cons m ms ih => exact ih h.tail

/-- No difference is made into symbols. -/
theorem not_itemsMade_minus (ns : List Node) : ¬ ItemsMade style (.token "Minus" [] :: ns) := by
  rintro ⟨parent, scope, previous, c, r, h⟩
  rw [items] at h
  obtain ⟨s, hs, -⟩ := bind_eq_ok.1 h
  cases hs

/-- The class without items is no pattern. -/
theorem compile_hollowClass :
    (Pattern.compile (String.ofList (CharCode.expand hollowClass))).toOption.isNone = true := by
  decide +kernel

/-- No class without items is made into symbols. -/
theorem not_itemsMade_hollow (ns : List Node) : ¬ ItemsMade style (.token "CharClass" hollowClass :: ns) := by
  rintro ⟨parent, scope, previous, c, r, h⟩
  rw [items] at h
  obtain ⟨s, hclass, -⟩ := bind_eq_ok.1 h
  have hnone := compile_hollowClass
  simp only [classSymbol, Node.token, String.toList_ofList] at hclass
  split at hclass
  next => cases hclass
  next p hp =>
    rw [hp] at hnone
    cases hnone

/-- Symbols are made of all alternatives. -/
theorem itemsMade_of_sequences {parent : String} {scope : Attributes} {r : List (List Symbol) × Compiled}
    (h : sequences style parent scope ns c = .ok r) (hn : n ∈ ns) (hkind : n.kind = "SequenceOrDifference") :
    ItemsMade style n.children := by
  induction ns generalizing c r with
  | nil => cases hn
  | cons m ns ih =>
    rw [sequences] at h
    by_cases hm : m.kind = "SequenceOrDifference"
    · rw [if_pos hm] at h
      obtain ⟨r', hfirst, hrest⟩ := bind_eq_ok.1 h
      obtain ⟨r'', hmore, -⟩ := bind_eq_ok.1 hrest
      rcases List.mem_cons.1 hn with rfl | hn
      · obtain ⟨kind, text, start, stop, children⟩ := n
        exact ⟨parent, scope, none, c, r', hfirst⟩
      · exact ih hmore hn
    · rw [if_neg hm] at h
      rcases List.mem_cons.1 hn with rfl | hn
      · exact absurd hkind hm
      · exact ih h hn

/-- Where a production compiles, the items of its sequences are made into symbols. -/
theorem itemsMade_of_production {name : String} {inherited : Option Attributes} {m : Node}
    (h : production style name inherited n c = .ok c') (hm : m ∈ n.children)
    (hkind : m.kind = "SequenceOrDifference") : ItemsMade style m.children := by
  obtain ⟨kind, text, start, stop, children⟩ := n
  rw [production] at h
  obtain ⟨own, -, h⟩ := bind_eq_ok.1 h
  obtain ⟨r, hsequences, -⟩ := bind_eq_ok.1 h
  exact itemsMade_of_sequences hsequences hm hkind

/-- Where a group is made into symbols, the items of its sequences are. -/
theorem itemsMade_of_group (h : ItemsMade style (.branch "SubItem" (choice.map Item.sequenceNode) :: ns))
    {s : List Item} (hs : s ∈ choice) : ItemsMade style (s.flatMap Item.nodes) := by
  obtain ⟨parent, scope, previous, c, r, h⟩ := h
  rw [items] at h
  obtain ⟨c', hproduction, -⟩ := bind_eq_ok.1 h
  exact itemsMade_of_production hproduction (List.mem_map_of_mem hs) rfl

/-- An item that symbols are made of is legible. The induction is on the nesting of groups. -/
theorem legible_of_itemsMade {i : Item} (hi : i.Derivable style) (h : ItemsMade style (i.nodes ++ ns)) :
    i.Legible style := by
  induction i generalizing ns with
  | token kind lead text tail =>
    cases hi with
    | token htext hlead htail =>
      rcases htext with htext | ⟨rfl, rfl⟩
      · exact .token htext hlead htail
      · rw [Item.nodes, List.append_assoc] at h
        exact absurd h.of_append (not_itemsMade_hollow _)
    | minus => exact absurd h (not_itemsMade_minus _)
  | group lead choice tail ih =>
    cases hi with
    | group hlead htail hne hnes hitems =>
      rw [Item.nodes_group, List.append_assoc] at h
      refine .group hlead htail hne hnes fun s hs i hi => ?_
      have hsequence := itemsMade_of_group h.of_append hs
      obtain ⟨front, back, rfl⟩ := List.append_of_mem hi
      rw [List.flatMap_append, List.flatMap_cons] at hsequence
      exact ih _ hs i hi (hitems _ hs i hi) hsequence.of_append

/-- The items of a line that rules are made of are legible. -/
theorem legible_of_production {l : Line} (hl : DerivableChoice style l.choice) {name : String}
    {inherited : Option Attributes} (h : production style name inherited l.node c = .ok c') :
    ∀ s ∈ l.choice, s ≠ [] ∧ ∀ i ∈ s, i.Legible style := by
  intro s hs
  refine ⟨(hl.2 s hs).1, fun i hi => ?_⟩
  have hmem : Item.sequenceNode s ∈ l.node.children :=
    List.mem_cons_of_mem _ (List.mem_append_left _ (List.mem_map_of_mem hs))
  have hsequence := itemsMade_of_production h hmem rfl
  obtain ⟨front, back, rfl⟩ := List.append_of_mem hi
  rw [Item.sequenceNode, Node.branch, List.flatMap_append, List.flatMap_cons] at hsequence
  exact legible_of_itemsMade ((hl.2 _ hs).2 i hi) hsequence.of_append

/-- Derivable lines that compile are legible. -/
theorem legible_of_productions {lines : List Line} (hlines : ∀ l ∈ lines, DerivableChoice style l.choice)
    (h : productions style c (lines.map Line.node) = .ok c') :
    ∀ l ∈ lines, ∀ s ∈ l.choice, s ≠ [] ∧ ∀ i ∈ s, i.Legible style := by
  induction lines generalizing c with
  | nil => nofun
  | cons l lines ih =>
    rw [List.forall_mem_cons] at hlines
    rw [List.map_cons, productions] at h
    obtain ⟨c₁, hfirst, hmore⟩ := bind_eq_ok.1 h
    exact List.forall_mem_cons.2 ⟨legible_of_production hlines.1 hfirst, ih hlines.2 hmore⟩

/-- The items of a grammar of lines that rules are made of are legible. -/
theorem legible_of_rulesOf {as : List (List Char × List Char)} {lines : List Line} {rules : List Rule}
    (hlines : ∀ l ∈ lines, DerivableChoice style l.choice) (h : rulesOf style (grammarNode as lines) = .ok rules) :
    ∀ l ∈ lines, ∀ s ∈ l.choice, s ≠ [] ∧ ∀ i ∈ s, i.Legible style := by
  rw [rulesOf] at h
  obtain ⟨attrs, -, h⟩ := bind_eq_ok.1 h
  obtain ⟨c, hproductions, -⟩ := bind_eq_ok.1 h
  rw [childrenOf_grammarNode] at hproductions
  exact legible_of_productions hlines hproductions

end Refused

/-! ## What sources are read as -/

/-- A text that the attributed notation reads as these attributes of the whole grammar and these lines. -/
structure ReadsAs (source : String) (as : List (List Char × List Char)) (lines : List Line) : Prop where
  outline : ∃ root, readGrammarTree attributedParser source = .ok root ∧ root.outline isToken = grammarNode as lines
  attributes : ∀ a ∈ as, LegibleAttribute a
  legible : ∀ l ∈ lines, l.Legible

variable {source : String} {as : List (List Char × List Char)} {lines : List Line} {rules : List Rule}

/-- **Every accepted source is a grammar of legible lines.** -/
theorem exists_readsAs (h : Dialect.custom.rulesOf source = .ok rules) : ∃ as lines, ReadsAs source as lines := by
  obtain ⟨root, hroot, hrules⟩ := bind_eq_ok.1 h
  obtain ⟨as, lines, has, hlines, houtline⟩ := outline_of_readGrammarTree hroot
  rw [rulesOf_eq_of_outline houtline] at hrules
  have hlegible := legible_of_rulesOf (fun l hl => (hlines l hl).choice) hrules
  exact ⟨as, lines, ⟨root, hroot, houtline⟩, has, fun l hl =>
    ⟨(hlines l hl).name, (hlines l hl).choice.1, hlegible l hl, (hlines l hl).attributes⟩⟩

/-- The rules of a source are those of its lines. -/
theorem ReadsAs.rulesOf_eq (h : ReadsAs source as lines) :
    Dialect.custom.rulesOf source = rulesOf .attributed (grammarNode as lines) := by
  rw [Dialect.rulesOf, bind_rulesOf_eq h.outline]

/-- The text of legible lines reads as them. -/
theorem readsAs_lines (h : ∀ l ∈ lines, l.Legible) : ReadsAs (String.ofList (lines.flatMap Line.text)) [] lines :=
  ⟨readGrammarTree_lines h, nofun, h⟩

end Grammarian.Notation
