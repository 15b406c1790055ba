import Grammarian.Proofs.Grammar.Faults
import Grammarian.Proofs.Notation.Lossless
import Grammarian.Proofs.Notation.Weaving

/-!
# Helpers inside of productions

Writing rules down puts each helper where it is referred to, and the helpers in it likewise. `Spelled` is this
recursion without a bound on its depth. On the rules that a source is read as it comes to an end, and in all
productions together it writes each helper once. `Compacted` sums up what helpers a source has.
-/

namespace Grammarian

namespace Notation

/-! ## Writing without a bound -/

/-- How a symbol is written, and the helpers that are written in the course of it. -/
inductive Spelled (style : Style) (rules : List Rule) : Symbol → String → List String → Prop
  | literal (value : String) : Spelled style rules (.literal value) (Literal.quote value) []
  | pattern (p : Pattern) : Spelled style rules (.pattern p) (patternText p) []
  | name {r : Reference} (hnone : helperOf? rules r.name = none) :
      Spelled style rules (.reference r) (leadText style r ++ r.name ++ r.tailMark) []
  /-- a helper stands in the place of its name, in parentheses unless it is a single terminal -/
  | helper {r : Reference} {h : Rule} (text : Symbol → String) (inlined : Symbol → List String)
      (hh : helperOf? rules r.name = some h)
      (hparts : ∀ s ∈ h.alternatives.flatten, Spelled style rules s (text s) (inlined s)) :
      Spelled style rules (.reference r)
        (leadText style r ++ (if isLonely h then alternativesText text h else "(" ++ alternativesText text h ++ ")")
          ++ r.tailMark)
        (h.name :: h.alternatives.flatten.flatMap inlined)

/-- The helpers that are written in the course of a symbol, nested up to `depth` levels. -/
def inlinedHelpers (rules : List Rule) : (depth : Nat) → Symbol → List String
  | depth + 1, .reference r =>
    match helperOf? rules r.name with
    | some h => h.name :: h.alternatives.flatten.flatMap (inlinedHelpers rules depth)
    | none => []
  | _, _ => []

variable {style : Style} {rules new : List Rule} {symbols : List Symbol} {n n' : Nat}

theorem alternativesText_congr {text text' : Symbol → String} {r : Rule}
    (h : ∀ s ∈ r.alternatives.flatten, text s = text' s) : alternativesText text r = alternativesText text' r := by
  have hmap : r.alternatives.map (fun a => " ".intercalate (a.map text)) =
      r.alternatives.map fun a => " ".intercalate (a.map text') := by
    refine List.map_congr_left fun a ha => ?_
    rw [List.map_congr_left fun s hs => h s (List.mem_flatten.2 ⟨a, ha, hs⟩)]
  rw [alternativesText, alternativesText, hmap]

/-- A symbol is written in one way. -/
theorem Spelled.unique {s : Symbol} {text text' : String} {names names' : List String}
    (h : Spelled style rules s text names) (h' : Spelled style rules s text' names') :
    text = text' ∧ names = names' := by
  induction h generalizing text' names' with
  | literal value =>
    cases h'
    exact ⟨rfl, rfl⟩
  | pattern p =>
    cases h'
    exact ⟨rfl, rfl⟩
  | name hnone =>
    cases h' with
    | name => exact ⟨rfl, rfl⟩
    | helper text inlined hh hparts =>
      rw [hnone] at hh
      cases hh
  | @helper r k text inlined hk hparts ih =>
    cases h' with
    | name hnone =>
      rw [hnone] at hk
      cases hk
    | @helper _ k' text' inlined' hk' hparts' =>
      obtain rfl : k = k' := Option.some.inj (hk.symm.trans hk')
      have htext := alternativesText_congr fun s hs => (ih s hs (hparts' s hs)).1
      have hinlined : k.alternatives.flatten.flatMap inlined = k.alternatives.flatten.flatMap inlined' :=
        List.flatMap_congr fun s hs => (ih s hs (hparts' s hs)).2
      rw [htext, hinlined]
      exact ⟨rfl, rfl⟩

/-- The text and the helpers that come up within a bounded number of levels are those without a bound. -/
def WrittenWithin (style : Style) (rules : List Rule) (depth : Nat) (s : Symbol) : Prop :=
  Spelled style rules s (symbolText style rules depth s) (inlinedHelpers rules depth s)

/-- A lone symbol inlines no helper. -/
theorem inlinedHelpers_lone {s : Symbol} (h : Lone s) (depth : Nat) : inlinedHelpers rules depth s = [] := by
  cases depth with
  | zero => cases h <;> rfl
  | succ depth =>
    cases h with
    | literal value => rfl
    | pattern p => rfl
    | reference hname hread => simp only [inlinedHelpers, helperOf?_eq_none hname]

theorem writtenWithin_lone {s : Symbol} (h : Lone s) (depth : Nat) : WrittenWithin style rules depth s := by
  rw [WrittenWithin, inlinedHelpers_lone h]
  cases h with
  | literal value =>
    rw [symbolText_literal]
    exact .literal value
  | pattern p =>
    rw [symbolText_pattern]
    exact .pattern p
  | @reference r hname hread =>
    have hnone : helperOf? rules r.name = none := helperOf?_eq_none hname
    have htext : symbolText style rules depth (.reference r) = leadText style r ++ r.name ++ r.tailMark := by
      unfold symbolText
      simp only [hnone]
    rw [htext]
    exact .name hnone

/-- A reference to a helper inlines it, and what its body does. -/
theorem inlinedHelpers_reference {r : Reference} {k : Rule} (hk : helperOf? rules r.name = some k) (depth : Nat) :
    inlinedHelpers rules (depth + 1) (.reference r) =
      k.name :: k.alternatives.flatten.flatMap (inlinedHelpers rules depth) := by
  rw [inlinedHelpers, hk]

/-- A reference to a helper is written within one level more than its body. -/
theorem writtenWithin_reference {r : Reference} {k : Rule} {depth : Nat} (hk : helperOf? rules r.name = some k)
    (hparts : ∀ s ∈ k.alternatives.flatten, WrittenWithin style rules depth s) :
    WrittenWithin style rules (depth + 1) (.reference r) := by
  have hspelled : Spelled style rules (.reference r) _ _ := .helper _ _ hk hparts
  rw [WrittenWithin, inlinedHelpers_reference hk]
  unfold symbolText
  rw [hk]
  exact hspelled

/-- More levels change nothing. -/
theorem WrittenWithin.inlinedHelpers_eq {s : Symbol} {depth depth' : Nat} (h : WrittenWithin style rules depth s)
    (h' : WrittenWithin style rules depth' s) : inlinedHelpers rules depth s = inlinedHelpers rules depth' s :=
  (Spelled.unique h h').2

/-- Each symbol is written within as many levels as there are rules. -/
theorem Woven.writtenWithin (h : Woven n new symbols n') (hfound : Finds rules new) {depth : Nat}
    (hdepth : new.length ≤ depth) :
    (∀ s ∈ symbols, WrittenWithin style rules depth s) ∧
      ∀ k ∈ new, ∀ s ∈ k.alternatives.flatten, WrittenWithin style rules depth s := by
  induction h generalizing depth with
  | nil n => exact ⟨List.forall_mem_nil _, List.forall_mem_nil _⟩
  | lone hs => exact ⟨List.forall_mem_singleton.2 (writtenWithin_lone hs depth), List.forall_mem_nil _⟩
  | @helper n n' new k r parent inner hname hpin hr hread ih =>
    rw [finds_append] at hfound
    rw [List.length_append, List.length_singleton] at hdepth
    obtain ⟨d, rfl⟩ : ∃ d, depth = d + 1 := Nat.exists_eq_add_one.2 (by omega)
    have hk : helperOf? rules r.name = some k := by
      rw [hr]
      exact hfound.2 k List.mem_cons_self (hname ▸ isHelperName_helperName ⟨[], n⟩ parent)
    have hinner := ih hfound.1 (show new.length ≤ d by omega)
    have hmore := ih hfound.1 (show new.length ≤ d + 1 by omega)
    exact ⟨List.forall_mem_singleton.2 (writtenWithin_reference hk hinner.1),
      List.forall_mem_append.2 ⟨hmore.2, List.forall_mem_singleton.2 hmore.1⟩⟩
  | @rule n n' new k inner hname hpin ih =>
    rw [finds_append] at hfound
    rw [List.length_append] at hdepth
    have hinner := ih hfound.1 (show new.length ≤ depth by omega)
    exact ⟨List.forall_mem_nil _, List.forall_mem_append.2 ⟨hinner.2, List.forall_mem_singleton.2 hinner.1⟩⟩
  | @append n n' n'' new more symbols others front back ihFront ihBack =>
    rw [finds_append] at hfound
    rw [List.length_append] at hdepth
    have hfront := ihFront hfound.1 (show new.length ≤ depth by omega)
    have hback := ihBack hfound.2 (show more.length ≤ depth by omega)
    exact ⟨List.forall_mem_append.2 ⟨hfront.1, hback.1⟩, List.forall_mem_append.2 ⟨hfront.2, hback.2⟩⟩

/-- The helpers that are written in the course of a rule. -/
def inlinedBy (rules : List Rule) (depth : Nat) (r : Rule) : List String :=
  r.alternatives.flatten.flatMap (inlinedHelpers rules depth)

/-- In the productions and the symbols together each helper is written once. -/
theorem Woven.inlined_perm (h : Woven n new symbols n') (hfound : Finds rules new) {depth : Nat}
    (hdepth : new.length ≤ depth) :
    ((productionsOf new).flatMap (inlinedBy rules depth) ++ symbols.flatMap (inlinedHelpers rules depth)).Perm
      (helperNames new) := by
  induction h with
  | nil n => exact .nil
  | lone hs =>
    rw [List.flatMap_singleton, inlinedHelpers_lone hs]
    exact .nil
  | @helper n n' new k r parent inner hname hpin hr hread ih =>
    rw [finds_append] at hfound
    rw [List.length_append, List.length_singleton] at hdepth
    obtain ⟨d, rfl⟩ : ∃ d, depth = d + 1 := Nat.exists_eq_add_one.2 (by omega)
    have hhelper : isHelperName k.name = true := hname ▸ isHelperName_helperName ⟨[], n⟩ parent
    have hk : helperOf? rules r.name = some k := by
      rw [hr]
      exact hfound.2 k List.mem_cons_self hhelper
    have hsame : k.alternatives.flatten.flatMap (inlinedHelpers rules d) =
        k.alternatives.flatten.flatMap (inlinedHelpers rules (d + 1)) := by
      refine List.flatMap_congr fun s hs => ?_
      have hless : WrittenWithin .w3c rules d s := (inner.writtenWithin hfound.1 (by omega)).1 s hs
      have hmore : WrittenWithin .w3c rules (d + 1) s := (inner.writtenWithin hfound.1 (by omega)).1 s hs
      exact hless.inlinedHelpers_eq hmore
    rw [productionsOf_append, productionsOf_helpers (List.forall_mem_singleton.2 hhelper), List.append_nil,
      List.flatMap_singleton, inlinedHelpers_reference hk, hsame, helperNames_concat new hhelper]
    refine List.perm_middle.trans ?_
    exact ((ih hfound.1 (by omega)).cons k.name).trans (List.perm_append_singleton k.name _).symm
  | @rule n n' new k inner hname hpin ih =>
    rw [finds_append] at hfound
    rw [List.length_append] at hdepth
    have hproductions : productionsOf (new ++ [k]) = productionsOf new ++ [k] := by
      rw [productionsOf_append, productionsOf, productionsOf, List.filter_singleton, hname]
      rfl
    rw [hproductions, List.flatMap_append, List.flatMap_singleton, List.flatMap_nil, List.append_nil,
      helperNames_concat_rule new hname]
    exact ih hfound.1 (by omega)
  | append front back ihFront ihBack =>
    rw [finds_append] at hfound
    rw [List.length_append] at hdepth
    have hfront := ihFront hfound.1 (by omega)
    have hback := ihBack hfound.2 (by omega)
    rw [productionsOf_append, List.flatMap_append, List.flatMap_append, helperNames_append]
    exact perm_append_append hfront hback

/-! ## Sources -/

/-- The dialect with productions in this notation. -/
def Style.dialect : Style → Dialect
  | .w3c => .w3c
  | .attributed => .custom

/-- The parser of the notation. -/
def Style.parser : Style → Except (List Problem) Parser
  | .w3c => w3cParser
  | .attributed => attributedParser

section Sources

variable {source : String}

/-- Every source that is accepted is read as lines, and its rules are those of the lines up to the default that the
whole grammar has. -/
theorem exists_lines (h : style.dialect.rulesOf source = .ok rules) : ∃ root as lines c skips,
    readGrammarTree style.parser source = .ok root ∧ root.outline isToken = grammarNode as lines ∧
      (∀ l ∈ lines, IsName l.name ∧ ∀ s ∈ l.choice, ∀ i ∈ s, i.Legible style) ∧
      compileLines style {} lines = .ok c ∧ rules = c.rules.map (withDefault skips) := by
  cases style with
  | w3c =>
    obtain ⟨root, hroot, lines, hlines, houtline, hrules⟩ := unattributed_of_rulesOf h
    have hitems : ∀ l ∈ lines, ∀ s ∈ l.choice, ∀ i ∈ s, i.Legible .w3c := fun l hl s hs =>
      ((hlines l hl).items s hs).2
    obtain ⟨k, hcompile⟩ := (rulesOf_bare hitems).1 hrules
    exact ⟨root, [], lines, ⟨rules, k⟩, false, hroot, houtline, fun l hl => ⟨(hlines l hl).name, hitems l hl⟩, hcompile,
      (List.map_id' rules).symm⟩
  | attributed =>
    obtain ⟨as, lines, hreads⟩ := exists_readsAs h
    obtain ⟨root, hroot, houtline⟩ := hreads.outline
    obtain ⟨attrs, c, -, hcompile, hrules⟩ := hreads.rulesOf_iff.1 h
    exact ⟨root, as, lines, c, _, hroot, houtline, fun l hl => ⟨(hreads.legible l hl).name, fun s hs =>
      ((hreads.legible l hl).items s hs).2⟩, hcompile, hrules⟩

/-- A rule with the name of a production, an alternative for each that is written and the symbols that these are
read as. -/
structure IsRuleOf (style : Style) (production : Node) (r : Rule) : Prop where
  name : r.name = Attributes.childText production "NCName"
  length : r.alternatives.length = (production.childrenOf "SequenceOrDifference").length
  alternatives : ∃ own c c', sequences style r.name own production.children c = .ok (r.alternatives, c')

theorem childrenOf_line (l : Line) :
    l.node.childrenOf "SequenceOrDifference" = l.choice.map Item.sequenceNode := by
  have hchoice : (l.choice.map Item.sequenceNode).filter (·.kind = "SequenceOrDifference") =
      l.choice.map Item.sequenceNode := by
    rw [List.filter_eq_self]
    intro n hn
    obtain ⟨s, -, rfl⟩ := List.mem_map.1 hn
    simp [Item.sequenceNode, Node.branch]
  have hnone : (attributesNodes l.attributes).filter (·.kind = "SequenceOrDifference") = [] := by
    rw [attributesNodes]
    split
    next => rfl
    next => simp [Node.branch]
  have hname : ¬ (Node.token "NCName" l.name).kind = "SequenceOrDifference" := by simp [Node.token]
  rw [Node.childrenOf, Line.node, Node.branch, List.filter_cons_of_neg (by simpa using hname), List.filter_append,
    hchoice, hnone, List.append_nil]

/-- The rule of a line is that of the production with its outline. -/
theorem StandsAs.isRuleOf {l : Line} {r : Rule} {production : Node} (h : StandsAs style l r)
    (hitems : ∀ s ∈ l.choice, ∀ i ∈ s, i.Legible style) (houtline : production.outline isToken = l.node) :
    IsRuleOf style production r := by
  have hkind : isToken production.kind = false := by
    rw [← Node.outline_kind production, houtline]
    exact (by decide : isToken "Production" = false)
  have hname := childText_outline hkind (show isToken "NCName" = true by decide)
  have hsequences := Node.childrenOf_outline hkind "SequenceOrDifference"
  have hchildren := Node.outline_children hkind
  rw [houtline] at hname hsequences hchildren
  obtain ⟨own, c, c', hchoice⟩ := h.alternatives
  refine ⟨h.name.trans hname, ?_, own, c, c', ?_⟩
  · rw [childrenOf_line] at hsequences
    have hlength := congrArg List.length hsequences
    rw [List.length_map, List.length_map] at hlength
    exact (length_choiceSymbols hchoice).trans hlength
  · rw [← sequences_outline, ← hchildren, sequences_line hitems]
    exact hchoice

/-- What a source is read as is woven, and its productions are the rules that are no helpers, in order. -/
theorem exists_woven (h : style.dialect.rulesOf source = .ok rules) : (∃ n, Woven 0 rules [] n) ∧
    ∃ root, readGrammarTree style.parser source = .ok root ∧
      List.Forall₂ (IsRuleOf style) (root.childrenOf "Production") (productionsOf rules) := by
  obtain ⟨root, as, lines, c, skips, hroot, houtline, hlines, hcompile, rfl⟩ := exists_lines h
  obtain ⟨new, hnew, hwoven, hstands⟩ := lines_woven hlines hcompile
  obtain rfl : c.rules = new := hnew
  have hkind : isToken root.kind = false := by
    rw [← Node.outline_kind root, houtline]
    exact (by decide : isToken "Grammar" = false)
  have hnodes : (root.childrenOf "Production").map (Node.outline isToken) = lines.map Line.node := by
    rw [← Node.childrenOf_outline hkind, houtline, childrenOf_grammarNode]
  have hproductions : productionsOf (c.rules.map (withDefault skips)) =
      (productionsOf c.rules).map (withDefault skips) := by
    rw [productionsOf, productionsOf, List.filter_map]
    simp [Function.comp_def]
  have hrules : List.Forall₂ (fun n r => ∃ l ∈ lines, n = l.node ∧ StandsAs style l r) (lines.map Line.node)
      (productionsOf c.rules) := by
    rw [List.forall₂_map_left_iff]
    exact List.forall₂_iff_zip.2 ⟨hstands.length_eq, fun hmem =>
      ⟨_, (List.of_mem_zip hmem).1, rfl, (List.forall₂_iff_zip.1 hstands).2 hmem⟩⟩
  refine ⟨⟨c.helpers, hwoven.map (withDefault_name skips) (withDefault_alternatives skips) (withDefault_pinAt skips)⟩,
    root, hroot, ?_⟩
  rw [← hnodes, List.forall₂_map_left_iff] at hrules
  rw [hproductions, List.forall₂_map_right_iff]
  refine hrules.imp fun production r hr => ?_
  obtain ⟨l, hl, houtline, hstands⟩ := hr
  have hrule := hstands.isRuleOf (hlines l hl).2 houtline
  refine ⟨?_, ?_, ?_⟩
  · rw [withDefault_name, hrule.name]
  · rw [withDefault_alternatives, hrule.length]
  · rw [withDefault_name, withDefault_alternatives]
    exact hrule.alternatives

/-- The helpers among rules. -/
structure HelpersOnce (rules : List Rule) : Prop where
  distinct : (helperNames rules).Nodup
  closed : ∀ r ∈ rules, ∀ name ∈ r.helperReferences, name ∈ helperNames rules
  /-- a helper is referred to once, by a rule behind it -/
  referred : ∀ before k after, rules = before ++ k :: after → isHelperName k.name = true →
    ((before ++ [k]).flatMap Rule.helperReferences).count k.name = 0 ∧
      (after.flatMap Rule.helperReferences).count k.name = 1
  /-- where the rules are refused, it is not for the names of helpers -/
  accepted : ∀ whitespace faults, Table.build rules whitespace = .error faults → ∀ name, isHelperName name = true →
    .duplicateRule name ∉ faults ∧ ∀ owner, .undefinedRule owner name ∉ faults
  /-- writing a symbol comes to an end, with the text that is written -/
  written : ∀ style, ∀ r ∈ rules, ∀ s ∈ r.alternatives.flatten, ∀ text names, Spelled style rules s text names ↔
    text = symbolText style rules rules.length s ∧ names = inlinedHelpers rules rules.length s
  /-- all productions together are written with each helper once -/
  inlined : ((productionsOf rules).flatMap (inlinedBy rules rules.length)).Perm (helperNames rules)

/-- What is woven has no helper that is declared twice or missing. -/
theorem Woven.accepted (h : Woven n rules [] n') {whitespace name : String} {faults : List Problem}
    (hfaults : Table.build rules whitespace = .error faults) (hname : isHelperName name = true) :
    .duplicateRule name ∉ faults ∧ ∀ owner, .undefinedRule owner name ∉ faults := by
  rw [Table.eq_problems_of_build hfaults]
  constructor
  · intro hmem
    have htwice : 2 ≤ (rules.map (·.name)).count name := ((Table.mem_problems_iff_holds rfl).1 hmem).1
    have honce := List.nodup_iff_count_le_one.1 h.nodup name
    rw [helperNames, List.count_filter hname] at honce
    omega
  · intro owner hmem
    obtain ⟨⟨⟨r, hr, -, alt, halt, s, hs, href⟩, hmissing⟩, -⟩ := (Table.mem_problems_iff_holds rfl).1 hmem
    obtain ⟨ref, rfl, -, -, rfl⟩ := href
    have hreferred : ref.name ∈ r.helperReferences :=
      List.mem_filterMap.2 ⟨_, List.mem_flatten.2 ⟨alt, halt, hs⟩, if_pos hname⟩
    obtain ⟨-, k, hk, hsame⟩ := mem_helperNames.1 (h.closed hr hreferred)
    exact hmissing (hsame ▸ List.mem_map_of_mem hk)

/-- What is woven finds its helpers. -/
theorem Woven.finds (h : Woven n rules symbols n') : Finds rules rules := finds_of_distinct (h.grows []).distinct

/-- What is woven refers to each of its helpers once. -/
theorem Woven.helpersOnce (h : Woven n rules [] n') : HelpersOnce rules where
  distinct := h.nodup
  closed _ hr _ := h.closed hr
  referred _ _ _ hsplit := h.referred_once hsplit
  accepted _ _ hfaults _ := h.accepted hfaults
  written style r hr s hs text names := by
    have hwithin : WrittenWithin style rules rules.length s := (h.writtenWithin h.finds le_rfl).2 r hr s hs
    constructor
    · intro hspelled
      exact hspelled.unique hwithin
    · rintro ⟨rfl, rfl⟩
      exact hwithin
  inlined := by
    have hperm := h.inlined_perm h.finds le_rfl
    rwa [List.flatMap_nil, List.append_nil] at hperm

/-- **Helpers are unique, closed and nested without circles.** What a source is read as has its productions for rules,
in order, and helpers that are named apart, all referred to once, and by a rule behind them. -/
theorem helpers_once (h : style.dialect.rulesOf source = .ok rules) :
    (∃ root, readGrammarTree style.parser source = .ok root ∧
      List.Forall₂ (IsRuleOf style) (root.childrenOf "Production") (productionsOf rules)) ∧ HelpersOnce rules := by
  obtain ⟨⟨n, hwoven⟩, hproductions⟩ := exists_woven h
  exact ⟨hproductions, hwoven.helpersOnce⟩

end Sources

/-- A group in a group and a class with a mark, under a name with digits and underscores. -/
def nestedGrammar : String := "A_1 ::= (\"x\" (B | [a-z]+)*)? [0]*\nB ::= A_1\n"

/-- The lines of the grammar. -/
def nestedLines : List Line :=
  [⟨"A_1".toList, [[.group [] [[.token "StringLiteral" [] "\"x\"".toList [],
      .group [] [[.token "NCName" [] ['B'] []], [.token "CharClass" [] "[a-z]".toList ['+']]] ['*']]] ['?'],
      .token "CharClass" [] "[0]".toList ['*']]], []⟩,
    ⟨['B'], [[.token "NCName" [] "A_1".toList []]], []⟩]

theorem nestedGrammar_reads : ReadsAs nestedGrammar [] nestedLines :=
  @readsAs_lines nestedLines (by decide +kernel)

/-- A grammar with nested groups, whose four helpers are each used once. -/
theorem nestedGrammar_helpersOnce : ∃ rules, Dialect.custom.rulesOf nestedGrammar = .ok rules ∧
    helperNames rules = ["%A_1_0_1_2", "%A_1_0_1", "%A_1_0", "%A_1_3"] ∧ HelpersOnce rules := by
  have hmade : ((rulesOf .attributed (grammarNode [] nestedLines)).toOption.any fun rules =>
      helperNames rules = ["%A_1_0_1_2", "%A_1_0_1", "%A_1_0", "%A_1_3"]) = true := by decide +kernel
  obtain ⟨rules, hrules, hnames⟩ := exists_ok_of_any hmade
  rw [← nestedGrammar_reads.rulesOf_eq] at hrules
  have hsource : Style.attributed.dialect.rulesOf nestedGrammar = .ok rules := hrules
  exact ⟨rules, hrules, of_decide_eq_true hnames, (helpers_once hsource).2⟩

end Notation

end Grammarian
