import Grammarian.Proofs.Notation.Attributed
import Grammarian.Proofs.Notation.Attributes
import Grammarian.Proofs.Notation.Sources

/-!
# Where rules come from

A text in the attributed notation stands for attributes of the whole grammar and for lines: `ReadsAs` says which.
Its rules are those that the lines stand for, so every alternative that is written, also inside of groups, is an
alternative of a rule, and item by item its symbols are those that the items stand for.
-/

namespace Grammarian.Notation

/-! ## Sources -/

/-- The attribute that makes rules skip white space. -/
def implicitWs : List Char × List Char := ("ws".toList, "implicit".toList)

theorem legible_implicitWs : LegibleAttribute implicitWs := by decide +kernel

section Sources

variable {source : String} {as : List (List Char × List Char)} {lines : List Line} {rules : List Rule}

/-- The rules of a source are those of its lines, with the default that the whole grammar has. -/
theorem ReadsAs.rulesOf_iff (h : ReadsAs source as lines) : Dialect.custom.rulesOf source = .ok rules ↔
    ∃ attrs c, readAttributes [] as = .ok attrs ∧ compileLines .attributed {} lines = .ok c ∧
      rules = c.rules.map (withDefault (attrs.get? "ws" = some "implicit")) := by
  rw [h.rulesOf_eq, rulesOf_grammarNode fun l hl s hs => ((h.legible l hl).items s hs).2]
  simp only [bind_eq_ok]
  constructor
  · rintro ⟨attrs, hattrs, c, hc, hrules⟩
    exact ⟨attrs, c, hattrs, hc, (Except.ok.inj hrules).symm⟩
  · rintro ⟨attrs, c, hattrs, hc, rfl⟩
    exact ⟨attrs, hattrs, c, hc, rfl⟩

/-- Attributes of the whole grammar and lines as they are written. -/
def sheetText (as : List (List Char × List Char)) (lines : List Line) : List Char :=
  attributesText as ++ ((if as = [] then [] else ['\n']) ++ lines.flatMap Line.text)

/-- Attributes and lines are read as a grammar of these lines. -/
theorem Attributed.readFirst_sheet {t : Table} (ha : Attributed t) (has : ∀ a ∈ as, LegibleAttribute a)
    (h : ∀ l ∈ lines, l.Legible) :
    Step.ReadFirst t isToken grammarSteps (sheetText as lines) [] (attributesNodes as ++ lines.map Line.node) := by
  cases as with
  | nil => exact ha.readFirst_grammar h
  | cons first more =>
    have hclear := clear_lines fun l hl => (h l hl).name
    have hblank : (Step.star (.rule "RULE_S")).Skims t isToken [' '] (['\x7b', ' ']
        ++ ([',', ' '].intercalate ((first :: more).map attributeText) ++ [' ', '\x7d'])
          ++ (['\n'] ++ lines.flatMap Line.text) ++ []) [] :=
      ha.skims_spacing (by decide) (clear_cons.2 (by decide))
    have hbraces := (Step.reads_optional (Target.reads_rule
      (ha.reads_attributes has (['\n'] ++ lines.flatMap Line.text ++ [])))).skims
    have hspace : (Step.star (.rule "RULE_S")).Skims t isToken ['\n'] (lines.flatMap Line.text ++ []) [] := by
      rw [List.append_nil]
      exact ha.skims_spacing (by decide) (hclear.imp fun c hc => by simp [extendsLine, hc])
    have hend : (Step.one .endOfInput).Reads t isToken [] [] [] := Step.reads_one Target.reads_endOfInput
    have hlines := (ha.reads_lines h).cons hend.alone
    rw [List.append_nil] at hlines
    have hall := hblank.cons (hbraces.cons (hspace.cons hlines))
    have htext : sheetText (first :: more) lines = [' '] ++ (['\x7b', ' ']
        ++ ([',', ' '].intercalate ((first :: more).map attributeText) ++ [' ', '\x7d'])
          ++ (['\n'] ++ lines.flatMap Line.text)) := by
      simp [sheetText, attributesText]
    rw [htext]
    simpa [grammarSteps, attributesNodes] using hall.first

/-- **Every grammar of legible lines has a source.** -/
theorem readsAs_sheetText (has : ∀ a ∈ as, LegibleAttribute a) (h : ∀ l ∈ lines, l.Legible) :
    ReadsAs (String.ofList (sheetText as lines)) as lines := by
  have hread := readGrammarTree_of_readFirst attributedParser_eq start_attributedTable
    attributed_attributedTable.grammar (by decide) (attributed_attributedTable.readFirst_sheet has h)
  exact ⟨hread, has, h⟩

end Sources

/-! ## Alternatives -/

section Alternatives

variable {style : Style} {parent : String} {scope : Attributes} {c c' : Compiled} {i : Item} {s : List Item}
  {choice : List (List Item)} {symbols : List Symbol} {alternatives : List (List Symbol)}

/-- The symbols of an alternative are those of its items. -/
theorem sequenceSymbols_parts (h : Item.sequenceSymbols style parent scope s c = .ok (symbols, c')) :
    ∃ parts : List (List Symbol), symbols = parts.flatten ∧
      List.Forall₂ (fun i part => ∃ c₁ c₂, i.symbols style parent scope c₁ = .ok (part, c₂)) s parts := by
  induction s generalizing c symbols with
  | nil =>
    obtain ⟨rfl, -⟩ := sequenceSymbols_nil.1 h
    exact ⟨[], rfl, .nil⟩
  | cons i s ih =>
    obtain ⟨front, c₁, back, hfront, hback, rfl⟩ := sequenceSymbols_cons.1 h
    obtain ⟨parts, rfl, hparts⟩ := ih hback
    exact ⟨front :: parts, rfl, .cons ⟨c, c₁, hfront⟩ hparts⟩

theorem Grows.isPrefix {new : List Rule} (h : Grows c c' new) : c.rules <+: c'.rules := ⟨new, h.rules.symm⟩

/-- The symbols of an item among others, and what is there when they are made. -/
theorem sequenceSymbols_split {before after : List Item}
    (h : Item.sequenceSymbols style parent scope (before ++ i :: after) c = .ok (symbols, c')) :
    ∃ c₁ c₂ front part back, i.symbols style parent scope c₁ = .ok (part, c₂) ∧ symbols = front ++ (part ++ back) ∧
      c₂.rules <+: c'.rules := by
  induction before generalizing c symbols with
  | nil =>
    obtain ⟨part, c₁, back, hpart, hback, rfl⟩ := sequenceSymbols_cons.1 h
    obtain ⟨new, hnew⟩ := sequenceSymbols_grows after hback
    exact ⟨c, c₁, [], part, back, hpart, rfl, hnew.toGrows.isPrefix⟩
  | cons j before ih =>
    obtain ⟨first, c₁, more, -, hmore, rfl⟩ := sequenceSymbols_cons.1 h
    obtain ⟨c₂, c₃, front, part, back, hpart, rfl, hprefix⟩ := ih hmore
    exact ⟨c₂, c₃, first ++ front, part, back, hpart, (List.append_assoc ..).symm, hprefix⟩

theorem choiceSymbols_mem (h : Item.choiceSymbols style parent scope choice c = .ok (alternatives, c'))
    (hs : s ∈ choice) : ∃ c₁ c₂ symbols, Item.sequenceSymbols style parent scope s c₁ = .ok (symbols, c₂) ∧
      symbols ∈ alternatives ∧ c₂.rules <+: c'.rules := by
  induction choice generalizing c alternatives with
  | nil => cases hs
  | cons s' choice ih =>
    obtain ⟨front, c₁, back, hfront, hback, rfl⟩ := choiceSymbols_cons.1 h
    rcases List.mem_cons.1 hs with rfl | hs
    · obtain ⟨new, hnew⟩ := choiceSymbols_grows choice hback
      exact ⟨c, c₁, front, hfront, List.mem_cons_self, hnew.toGrows.isPrefix⟩
    · obtain ⟨c₂, c₃, symbols, hsymbols, hmem, hprefix⟩ := ih hback hs
      exact ⟨c₂, c₃, symbols, hsymbols, List.mem_cons_of_mem _ hmem, hprefix⟩

/-- The alternatives of a choice and of the groups in it, at any depth. -/
inductive Nested : List (List Item) → List Item → Prop
  | here {choice : List (List Item)} {s : List Item} (hs : s ∈ choice) : Nested choice s
  | inside {choice inner : List (List Item)} {s t : List Item} {lead tail : List Char} (hs : s ∈ choice)
    (hi : .group lead inner tail ∈ s) (ht : Nested inner t) : Nested choice t

/-- Every alternative, also inside of groups, has its symbols: in the choice itself or in a helper for a group. -/
theorem choiceSymbols_nested (hs : Nested choice s)
    (h : Item.choiceSymbols style parent scope choice c = .ok (alternatives, c')) :
    ∃ parent' c₁ c₂ symbols, Item.sequenceSymbols style parent' scope s c₁ = .ok (symbols, c₂) ∧
      (symbols ∈ alternatives ∨
        ∃ name others, groupHelper name others scope.whitespace? ∈ c'.rules ∧ symbols ∈ others) := by
  induction hs generalizing parent c alternatives c' with
  | here hs =>
    obtain ⟨c₁, c₂, symbols, hsymbols, hmem, -⟩ := choiceSymbols_mem h hs
    exact ⟨parent, c₁, c₂, symbols, hsymbols, .inl hmem⟩
  | inside hs hi _ ih =>
    obtain ⟨c₁, c₂, symbols, hsymbols, -, hprefix⟩ := choiceSymbols_mem h hs
    obtain ⟨before, after, rfl⟩ := List.append_of_mem hi
    obtain ⟨c₃, c₄, -, part, -, hpart, -, hprefix'⟩ := sequenceSymbols_split hsymbols
    obtain ⟨others, c₅, hinner, -, rfl⟩ := symbols_group.1 hpart
    obtain ⟨parent', c₆, c₇, symbols', hsymbols', hplace⟩ := ih hinner
    have hkept : ∀ r ∈ c₅.rules ++ [groupHelper (c₃.helperName parent) others scope.whitespace?], r ∈ c'.rules :=
      fun r hr => (hprefix'.trans hprefix).subset hr
    refine ⟨parent', c₆, c₇, symbols', hsymbols', .inr ?_⟩
    rcases hplace with hmem | ⟨name, others', hhelper, hmem⟩
    · exact ⟨_, others, hkept _ (List.mem_append_right _ (List.mem_singleton_self _)), hmem⟩
    · exact ⟨name, others', hkept _ (List.mem_append_left _ hhelper), hmem⟩

end Alternatives

/-! ## Lines -/

section Lines

variable {style : Style} {c c' : Compiled} {l : Line} {lines : List Line}

namespace Line

/-- The attributes of a line, which all its groups have in scope. -/
def scope (l : Line) : Attributes := attributeStrings l.attributes

/-- The rule of a line with these alternatives. -/
def rule (l : Line) (alternatives : List (List Symbol)) : Rule :=
  ownRule l.scope l.scope (String.ofList l.name) alternatives

/-- What a line stands for: the helpers for its items, and the rule of its alternatives. -/
theorem compile_iff : l.compile style c = .ok c' ↔ ∃ alternatives c₁, readAttributes [] l.attributes = .ok l.scope ∧
    Item.choiceSymbols style (String.ofList l.name) l.scope l.choice c = .ok (alternatives, c₁) ∧
    Counted l.scope (l.rule alternatives) ∧ c' = c₁.push (l.rule alternatives) := by
  rw [compile_line]
  constructor
  · rintro ⟨own, alternatives, c₁, r, hown, hchoice, hr, rfl⟩
    obtain rfl : own = l.scope := eq_of_readAttributes hown
    obtain ⟨rfl, hcounted⟩ := ruleWith_ok.1 hr
    exact ⟨alternatives, c₁, hown, hchoice, hcounted, rfl⟩
  · rintro ⟨alternatives, c₁, hown, hchoice, hcounted, rfl⟩
    exact ⟨_, alternatives, c₁, _, hown, hchoice, ruleWith_ok.2 ⟨rfl, hcounted⟩, rfl⟩

theorem compile_isPrefix (h : l.compile style c = .ok c') : c.rules <+: c'.rules := by
  obtain ⟨alternatives, c₁, -, hchoice, -, rfl⟩ := compile_iff.1 h
  obtain ⟨new, hnew⟩ := choiceSymbols_grows l.choice hchoice
  exact hnew.toGrows.isPrefix.trans (List.prefix_append _ _)

end Line

theorem compileLines_isPrefix (h : compileLines style c lines = .ok c') : c.rules <+: c'.rules := by
  induction lines generalizing c with
  | nil => rw [compileLines_nil.1 h]
  | cons l lines ih =>
    obtain ⟨c₁, hl, hlines⟩ := compileLines_cons.1 h
    exact (l.compile_isPrefix hl).trans (ih hlines)

theorem compileLines_mem (h : compileLines style c lines = .ok c') (hl : l ∈ lines) :
    ∃ c₁ c₂, l.compile style c₁ = .ok c₂ ∧ c₂.rules <+: c'.rules := by
  induction lines generalizing c with
  | nil => cases hl
  | cons k lines ih =>
    obtain ⟨c₁, hk, hlines⟩ := compileLines_cons.1 h
    rcases List.mem_cons.1 hl with rfl | hl
    · exact ⟨c, c₁, hk, compileLines_isPrefix hlines⟩
    · exact ih hlines hl

end Lines

namespace ReadsAs

variable {source : String} {as : List (List Char × List Char)} {lines : List Line} {rules : List Rule} {l : Line}

/-- The rule of a line, and the rules made before it. -/
theorem rule_mem (h : ReadsAs source as lines) (hrules : Dialect.custom.rulesOf source = .ok rules) (hl : l ∈ lines) :
    ∃ (skips : Bool) (alternatives : List (List Symbol)) (c₁ c₂ : Compiled),
      readAttributes [] l.attributes = .ok l.scope ∧
      Item.choiceSymbols .attributed (String.ofList l.name) l.scope l.choice c₁ = .ok (alternatives, c₂) ∧
      Counted l.scope (l.rule alternatives) ∧
      (skips = true ↔ Attributes.get? (attributeStrings as) "ws" = some "implicit") ∧
      withDefault skips (l.rule alternatives) ∈ rules ∧ ∀ r ∈ c₂.rules, withDefault skips r ∈ rules := by
  obtain ⟨attrs, c, hattrs, hc, rfl⟩ := h.rulesOf_iff.1 hrules
  obtain ⟨c₁, c₂, hcompile, hprefix⟩ := compileLines_mem hc hl
  obtain ⟨alternatives, c₃, hown, hchoice, hcounted, rfl⟩ := Line.compile_iff.1 hcompile
  have hkept : ∀ r ∈ c₃.rules ++ [l.rule alternatives], r ∈ c.rules := hprefix.subset
  refine ⟨_, alternatives, c₁, c₃, hown, hchoice, hcounted, ?_, List.mem_map_of_mem (hkept _ (by simp)), fun r hr =>
    List.mem_map_of_mem (hkept r (List.mem_append_left _ hr))⟩
  rw [eq_of_readAttributes hattrs, List.nil_append, decide_eq_true_eq]

/-- Every alternative of a line, also inside of groups, is an alternative of a rule. -/
theorem alternative_mem (h : ReadsAs source as lines) (hrules : Dialect.custom.rulesOf source = .ok rules)
    (hl : l ∈ lines) {s : List Item} (hs : Nested l.choice s) :
    ∃ r ∈ rules, ∃ symbols ∈ r.alternatives, ∃ parent c₁ c₂,
      Item.sequenceSymbols .attributed parent l.scope s c₁ = .ok (symbols, c₂) ∧
      r.implicitWhitespace = l.scope.whitespace?.or
        (if Attributes.get? (attributeStrings as) "ws" = some "implicit" then some true else none) := by
  obtain ⟨skips, alternatives, c₁, c₂, -, hchoice, -, hskips, hown, hkept⟩ := h.rule_mem hrules hl
  obtain ⟨parent, c₃, c₄, symbols, hsymbols, hplace⟩ := choiceSymbols_nested hs hchoice
  have hflag : ∀ r : Rule, r.implicitWhitespace = l.scope.whitespace? →
      (withDefault skips r).implicitWhitespace = l.scope.whitespace?.or
        (if Attributes.get? (attributeStrings as) "ws" = some "implicit" then some true else none) := by
    intro r hr
    rw [← hr, withDefault]
    by_cases hdefault : Attributes.get? (attributeStrings as) "ws" = some "implicit"
    · rw [hskips.2 hdefault, if_pos hdefault]
      cases hflag : r.implicitWhitespace with
      | none => rfl
      | some b => simp [hflag]
    · rw [if_neg hdefault, Bool.eq_false_iff.2 fun htrue => hdefault (hskips.1 htrue)]
      simp
  rcases hplace with hmem | ⟨name, others, hhelper, hmem⟩
  · exact ⟨_, hown, symbols, (withDefault_alternatives skips _).symm ▸ hmem, parent, c₃, c₄, hsymbols, hflag _ rfl⟩
  · exact ⟨_, hkept _ hhelper, symbols, (withDefault_alternatives skips _).symm ▸ hmem, parent, c₃, c₄, hsymbols,
      hflag _ rfl⟩

end ReadsAs

end Grammarian.Notation
