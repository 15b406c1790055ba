import Grammarian.Proofs.Notation.Bare
import Grammarian.Proofs.Notation.Following
import Grammarian.Proofs.Notation.Splitting
import Grammarian.Proofs.Parse.Reach

/-!
# Grammars of the W3C notation as attributed grammars

Every source that the W3C notation accepts is accepted by the attributed notation, which reads the same lines. Its
rules are those of the W3C notation with the literals without marks taken apart: `Dialect.embeds`. The literals
come in the order in which the rules have them, those of helpers before those of the rule around them.
-/

namespace Grammarian

namespace Notation

/-! ## The same lines -/

/-- The two meta grammars have their shared rules in common. -/
theorem filter_sharedRules :
    w3cRules.filter (·.name ∈ sharedRules) = attributedRules.filter (·.name ∈ sharedRules) := by
  decide +kernel

/-- The rules that both notations have match alike. -/
theorem ends_sharedRules (name : String) (hname : name ∈ sharedRules) (input : List Char) (found : Option Match)
    (h : w3cTable.Ends name input found) : attributedTable.Ends name input found := by
  have hsame : Table.SameReach w3cRules attributedRules "WS" name := by
    refine Table.sameReach_of_closed sharedRules hname (by decide +kernel) fun r hr => ?_
    have hfilter : r ∈ w3cRules.filter (·.name ∈ sharedRules) ↔ r ∈ attributedRules.filter (·.name ∈ sharedRules) := by
      rw [filter_sharedRules]
    simpa [hr] using hfilter
  have hagree := Table.agreeOn_of_sameReach wellOrdered_w3cRules.build wellOrdered_attributedRules.build hsame
  exact hagree.ends .refl h

/-- The rules for comments and white space consume something where they match. -/
def consumingRules : List String := "Comment" :: "%RULE_WHITESPACE_CHAR" :: spaceRules

/-- The rules of the W3C meta grammar are graded by their order. -/
theorem graded_w3cTable : w3cTable.Graded ⟨w3cOrder, consumingRules⟩ = true := by decide +kernel

/-- The rules of the custom meta grammar are graded by their order. -/
theorem graded_attributedTable : attributedTable.Graded ⟨attributedOrder, consumingRules⟩ = true := by decide +kernel

/-- What a rule of the W3C meta grammar leaves is what its grade allows. -/
theorem leaves_w3cTable {name : String} {input : List Char} {m : Match} (hm : w3cTable.Ends name input (some m)) :
    Grading.Leaves ⟨w3cOrder, consumingRules⟩ name input m.rest := by
  obtain ⟨found, hfound, hleaves⟩ := Table.Graded.exists_ends graded_w3cTable name input
  obtain rfl := hm.unique hfound
  exact hleaves m rfl

/-- The custom meta grammar follows the W3C one. -/
theorem follows_w3cTable : Follows w3cTable attributedTable where
  source := w3c_w3cTable
  image := attributed_attributedTable
  settles name input := (Table.Graded.exists_ends graded_w3cTable name input).imp fun _ => And.left
  settles' name input := (Table.Graded.exists_ends graded_attributedTable name input).imp fun _ => And.left
  shared := ends_sharedRules
  committed := by decide +kernel
  quoted := by decide +kernel
  told := respects_w3cTable
  leaves name input m hm := (leaves_w3cTable hm).1
  advances name hname input m hm := (leaves_w3cTable hm).2 (List.mem_cons_of_mem _ (List.mem_cons_of_mem _ hname))

/-! ## Literals taken apart -/

namespace Item

/-- The literal without marks that an item is. -/
def ownLiterals : Item → List String
  | token kind lead text tail =>
    if kind = "StringLiteral" ∧ lead = [] ∧ tail = [] then [String.ofList text] else []
  | group _ _ _ => []

/-- The literals without marks of alternatives themselves. -/
def choiceLiterals (choice : List (List Item)) : List String := choice.flatMap (·.flatMap ownLiterals)

mutual

/-- The literals without marks within groups, those of inner groups first. -/
def innerLiterals : Item → List String
  | token _ _ _ _ => []
  | group _ choice _ => innerChoice choice ++ choiceLiterals choice

def innerSequence : List Item → List String
  | [] => []
  | i :: s => innerLiterals i ++ innerSequence s

def innerChoice : List (List Item) → List String
  | [] => []
  | s :: choice => innerSequence s ++ innerChoice choice

end

/-- There are none where no item has any. -/
theorem innerChoice_eq_nil {choice : List (List Item)} (h : ∀ s ∈ choice, ∀ i ∈ s, i.innerLiterals = []) :
    innerChoice choice = [] := by
  have hsequence : ∀ s : List Item, (∀ i ∈ s, i.innerLiterals = []) → innerSequence s = [] := by
    intro s hs
    induction s with
    | nil => rfl
    | cons i s ih =>
      rw [List.forall_mem_cons] at hs
      rw [innerSequence, hs.1, ih hs.2, List.append_nil]
  induction choice with
  | nil => rfl
  | cons s choice ih =>
    rw [List.forall_mem_cons] at h
    rw [innerChoice, hsequence s h.1, ih h.2, List.append_nil]

end Item

/-- The literals without marks of a line, in the order in which its rules have them. -/
def Line.literals (l : Line) : List String := Item.innerChoice l.choice ++ Item.choiceLiterals l.choice

/-- Two lists whose members are related one by one, with the texts that belong to each of them. -/
inductive Along {α β : Type} (R : List String → α → β → Prop) : List String → List α → List β → Prop
  | nil : Along R [] [] []
  | cons {texts more : List String} {a : α} {b : β} {as : List α} {bs : List β} (h : R texts a b)
    (hmore : Along R more as bs) : Along R (texts ++ more) (a :: as) (b :: bs)

/-- A symbol and what it is replaced by: a literal by what comes of its text when that is taken apart. -/
inductive SymbolApart : List String → Symbol → List Symbol → Prop
  | literal {text : String} {symbols : List Symbol} (h : splitLiteral text false = .ok symbols) :
    SymbolApart [text] (.ofText text) symbols
  | other {s : Symbol} (h : ∀ value, s ≠ .literal value) : SymbolApart [] s [s]

/-- An alternative with its literals taken apart. -/
def Apart (texts : List String) (symbols symbols' : List Symbol) : Prop :=
  ∃ parts, Along SymbolApart texts symbols parts ∧ symbols' = parts.flatten

/-- A rule with its literals taken apart; all else is the same. -/
def RuleApart (texts : List String) (r r' : Rule) : Prop :=
  ∃ alternatives, Along Apart texts r.alternatives alternatives ∧ r' = { r with alternatives }

/-- Rules with their literals taken apart. -/
def RulesApart (texts : List String) (rules rules' : List Rule) : Prop := Along RuleApart texts rules rules'

section Along

variable {α β : Type} {R : List String → α → β → Prop} {texts more : List String} {as as' : List α} {bs bs' : List β}

/-- Two lists along texts are put behind two others. -/
theorem Along.append (h : Along R texts as bs) (h' : Along R more as' bs') :
    Along R (texts ++ more) (as ++ as') (bs ++ bs') := by
  induction h with
  | nil => exact h'
  | cons h _ ih =>
    rw [List.append_assoc]
    exact .cons h ih

theorem Along.concat {a : α} {b : β} (h : Along R texts as bs) (hlast : R more a b) :
    Along R (texts ++ more) (as ++ [a]) (bs ++ [b]) := by
  have hone := Along.cons hlast (.nil (R := R))
  rw [List.append_nil] at hone
  exact h.append hone

/-- Symbols apart are put behind others. -/
theorem Apart.append {symbols symbols' next next' : List Symbol} (h : Apart texts symbols symbols')
    (h' : Apart more next next') : Apart (texts ++ more) (symbols ++ next) (symbols' ++ next') := by
  obtain ⟨parts, hparts, rfl⟩ := h
  obtain ⟨parts', hparts', rfl⟩ := h'
  exact ⟨parts ++ parts', hparts.append hparts', List.flatten_append.symm⟩

/-- One symbol apart is a list of symbols apart. -/
theorem SymbolApart.apart {s : Symbol} {symbols : List Symbol} (h : SymbolApart texts s symbols) :
    Apart texts [s] symbols := by
  have hone := Along.cons h .nil
  rw [List.append_nil] at hone
  exact ⟨[symbols], hone, (List.append_nil symbols).symm⟩

end Along

/-! ## Texts that can be taken apart -/

/-- Every literal can be taken apart. -/
theorem exists_splitLiteral (text : String) : ∃ symbols, splitLiteral text false = .ok symbols := by
  rw [splitLiteral]
  split
  next => exact ⟨_, rfl⟩
  next hsplit =>
    simp only [Bool.or_eq_true, Bool.not_eq_true', not_or, Bool.not_eq_true, Bool.not_eq_false] at hsplit
    have hall : ∀ d ∈ text.toList.tail.dropLast, isSplittable d = true := fun d hd =>
      List.all_eq_true.1 hsplit.2 d (List.mem_of_mem_tail (List.mem_of_mem_dropLast hd))
    obtain ⟨symbols, hsymbols, -⟩ := exists_charPatterns false hall
    exact ⟨symbols, hsymbols⟩

/-! ## Items and lines -/

/-- What is read of the same items in both notations. -/
structure CompiledApart (texts : List String) (c d : Compiled) : Prop where
  rules : RulesApart texts c.rules d.rules
  helpers : d.helpers = c.helpers

section Items

variable {c d c' d' : Compiled} {texts more : List String} {parent : String} {lead text tail : List Char} {r r' : Rule}

/-- What compiles apart names its helpers alike. -/
theorem CompiledApart.helperName (h : CompiledApart texts c d) (parent : String) :
    d.helperName parent = c.helperName parent := by
  rw [Compiled.helperName, Compiled.helperName, h.helpers]

/-- Counting a helper on both sides keeps them apart by the same texts. -/
theorem CompiledApart.count (h : CompiledApart texts c d) : CompiledApart texts c.countHelper d.countHelper :=
  ⟨h.rules, congrArg (· + 1) h.helpers⟩

/-- Pushing rules apart adds the texts that they are apart by. -/
theorem CompiledApart.push (h : CompiledApart texts c d) (hr : RuleApart more r r') :
    CompiledApart (texts ++ more) (c.push r) (d.push r') := ⟨h.rules.concat hr, h.helpers⟩

/-- A reference stays what it is. -/
theorem apart_reference (r : Reference) : Apart [] [.reference r] [.reference r] :=
  (SymbolApart.other fun _ h => Symbol.noConfusion h).apart

/-- A pattern is apart from itself by no text. -/
theorem apart_pattern (p : Pattern) : Apart [] [.pattern p] [.pattern p] :=
  (SymbolApart.other fun _ h => Symbol.noConfusion h).apart

/-- The helper for a class has no literals. -/
theorem ruleApart_classHelper (name : String) (p : Pattern) (skips : Bool) :
    RuleApart [] (classHelper name p skips) (classHelper name p skips) :=
  ⟨[[.pattern p]], .cons (apart_pattern p) .nil, rfl⟩

/-- Codes and classes are read in the same way. -/
theorem class_apart {kind : String} (hkind : kind = "CharCode" ∨ kind = "CharClass")
    (hlead : IsMark (Style.leadMarks .w3c) lead) (htail : IsMark tailMarks tail) {symbols : List Symbol}
    (h : (Item.token kind lead text tail).symbols .w3c parent [] c = .ok (symbols, c'))
    (hapart : CompiledApart texts c d) :
    ∃ d', (Item.token kind lead text tail).symbols .attributed parent [] d = .ok (symbols, d') ∧
      CompiledApart texts c' d' ∧ Apart [] symbols symbols := by
  have hsame : (Item.token kind lead text tail).symbols .w3c parent [] c =
      (Item.token kind lead text tail).symbols .attributed parent [] c := by
    rcases hkind with rfl | rfl
    · rfl
    · rfl
  rw [hsame] at h
  cases hp : Pattern.compile (String.ofList (CharCode.expand text)) with
  | error e =>
    have hclass : (Item.token kind lead text tail).symbols .attributed parent [] c = .error (.pattern e) := by
      rcases hkind with rfl | rfl
      · simp only [Item.symbols, tokenSymbols, classSymbol, String.toList_ofList, hp]
        rfl
      · simp only [Item.symbols, tokenSymbols, classSymbol, String.toList_ofList, hp]
        rfl
    rw [hclass] at h
    cases h
  | ok p =>
    rw [symbols_class hkind hlead.attributed htail hp] at h ⊢
    rw [hapart.helperName]
    split at h
    next hplain =>
      cases h
      exact ⟨d, congrArg Except.ok (if_pos hplain), hapart, apart_pattern p⟩
    next hmarks =>
      cases h
      have hpush := hapart.count.push
        (ruleApart_classHelper (c.helperName parent) p ((Attributes.whitespace? []).getD false))
      rw [List.append_nil] at hpush
      exact ⟨_, congrArg Except.ok (if_neg hmarks), hpush, apart_reference _⟩

/-- A literal without marks is taken apart, and all other tokens stay what they are. -/
theorem token_apart {kind : String} (hi : (Item.token kind lead text tail).Legible .w3c) {symbols : List Symbol}
    (h : (Item.token kind lead text tail).symbols .w3c parent [] c = .ok (symbols, c'))
    (hapart : CompiledApart texts c d) :
    ∃ symbols' d', (Item.token kind lead text tail).symbols .attributed parent [] d = .ok (symbols', d') ∧
      CompiledApart texts c' d' ∧ Apart (Item.token kind lead text tail).ownLiterals symbols symbols' := by
  cases hi with
  | token htext hlead htail =>
    cases htext with
    | name hname =>
      cases h
      have hmarked := marked_name hlead.attributed htail hname.bare (isLiteral_of_isName hname lead tail)
      refine ⟨_, d, rfl, hapart, ?_⟩
      rw [hmarked]
      exact apart_reference _
    | quoted hquoted =>
      cases h
      by_cases hmarks : lead = [] ∧ tail = []
      · obtain ⟨rfl, rfl⟩ := hmarks
        obtain ⟨symbols, hsplit⟩ := exists_splitLiteral (String.ofList text)
        refine ⟨symbols, d, symbols_plainLiteral hsplit, hapart, ?_⟩
        have htext : marked (leadMark []) (String.ofList text) (String.ofList []) = .ofText (String.ofList text) := by
          simp [marked, leadMark]
        rw [htext]
        exact (SymbolApart.literal hsplit).apart
      · refine ⟨_, d, symbols_markedLiteral hlead.attributed htail hquoted hmarks, hapart, ?_⟩
        rw [marked_quoted hlead.attributed htail hquoted hmarks, Item.ownLiterals, if_neg (by simp [hmarks])]
        exact apart_reference _
    | code hcode =>
      obtain ⟨d', hd', happly, hsame⟩ := class_apart (.inl rfl) hlead htail h hapart
      exact ⟨symbols, d', hd', happly, hsame⟩
    | charClass hclass =>
      obtain ⟨d', hd', happly, hsame⟩ := class_apart (.inr rfl) hlead htail h hapart
      exact ⟨symbols, d', hd', happly, hsame⟩

mutual

/-- What an item stands for in both notations. -/
theorem symbols_apart : (i : Item) → i.Legible .w3c → ∀ {parent : String} {texts : List String} {c d c' : Compiled}
    {symbols : List Symbol}, i.symbols .w3c parent [] c = .ok (symbols, c') → CompiledApart texts c d →
    ∃ symbols' d', i.symbols .attributed parent [] d = .ok (symbols', d') ∧
      CompiledApart (texts ++ i.innerLiterals) c' d' ∧ Apart i.ownLiterals symbols symbols'
  | .token kind lead text tail, hi, parent, texts, c, d, c', symbols, h, hapart => by
    rw [Item.innerLiterals, List.append_nil]
    exact token_apart hi h hapart
  | .group lead choice tail, hi, parent, texts, c, d, c', symbols, h, hapart => by
    cases hi with
    | group hlead htail hne hnes hitems =>
      obtain ⟨alternatives, c₁, hchoice, rfl, rfl⟩ := symbols_group.1 h
      obtain ⟨alternatives', d₁, hchoice', happly, halternatives⟩ :=
        choiceSymbols_apart choice hitems hchoice hapart.count
      rw [← hapart.helperName] at hchoice'
      refine ⟨_, _, symbols_group.2 ⟨_, _, hchoice', rfl, rfl⟩, ?_, ?_⟩
      · rw [Item.innerLiterals, ← List.append_assoc, hapart.helperName]
        exact happly.push ⟨alternatives', halternatives, rfl⟩
      · rw [hapart.helperName, marked_helperName hlead.attributed htail]
        exact apart_reference _

/-- A sequence compiles apart by its literals. -/
theorem sequenceSymbols_apart : (s : List Item) → (∀ i ∈ s, i.Legible .w3c) → ∀ {parent : String} {texts : List String}
    {c d c' : Compiled} {symbols : List Symbol}, Item.sequenceSymbols .w3c parent [] s c = .ok (symbols, c') →
    CompiledApart texts c d → ∃ symbols' d', Item.sequenceSymbols .attributed parent [] s d = .ok (symbols', d') ∧
      CompiledApart (texts ++ Item.innerSequence s) c' d' ∧ Apart (s.flatMap Item.ownLiterals) symbols symbols'
  | [], hs, parent, texts, c, d, c', symbols, h, hapart => by
    obtain ⟨rfl, rfl⟩ := sequenceSymbols_nil.1 h
    refine ⟨[], d, rfl, ?_, [], .nil, rfl⟩
    rw [Item.innerSequence, List.append_nil]
    exact hapart
  | i :: s, hs, parent, texts, c, d, c', symbols, h, hapart => by
    rw [List.forall_mem_cons] at hs
    obtain ⟨front, c₁, back, hfront, hback, rfl⟩ := sequenceSymbols_cons.1 h
    obtain ⟨front', d₁, hfront', hfirst, hfrontApart⟩ := symbols_apart i hs.1 hfront hapart
    obtain ⟨back', d', hback', hlast, hbackApart⟩ := sequenceSymbols_apart s hs.2 hback hfirst
    refine ⟨front' ++ back', d', sequenceSymbols_cons.2 ⟨_, _, _, hfront', hback', rfl⟩, ?_,
      hfrontApart.append hbackApart⟩
    rw [Item.innerSequence, ← List.append_assoc]
    exact hlast

/-- A choice compiles apart by its literals. -/
theorem choiceSymbols_apart : (choice : List (List Item)) → (∀ s ∈ choice, ∀ i ∈ s, i.Legible .w3c) →
    ∀ {parent : String} {texts : List String} {c d c' : Compiled} {alternatives : List (List Symbol)},
    Item.choiceSymbols .w3c parent [] choice c = .ok (alternatives, c') → CompiledApart texts c d →
    ∃ alternatives' d', Item.choiceSymbols .attributed parent [] choice d = .ok (alternatives', d') ∧
      CompiledApart (texts ++ Item.innerChoice choice) c' d' ∧
      Along Apart (Item.choiceLiterals choice) alternatives alternatives'
  | [], hchoice, parent, texts, c, d, c', alternatives, h, hapart => by
    obtain ⟨rfl, rfl⟩ := choiceSymbols_nil.1 h
    refine ⟨[], d, rfl, ?_, .nil⟩
    rw [Item.innerChoice, List.append_nil]
    exact hapart
  | s :: choice, hchoice, parent, texts, c, d, c', alternatives, h, hapart => by
    rw [List.forall_mem_cons] at hchoice
    obtain ⟨front, c₁, back, hfront, hback, rfl⟩ := choiceSymbols_cons.1 h
    obtain ⟨front', d₁, hfront', hfirst, hfrontApart⟩ := sequenceSymbols_apart s hchoice.1 hfront hapart
    obtain ⟨back', d', hback', hlast, hbackApart⟩ := choiceSymbols_apart choice hchoice.2 hback hfirst
    refine ⟨front' :: back', d', choiceSymbols_cons.2 ⟨_, _, _, hfront', hback', rfl⟩, ?_, .cons hfrontApart hbackApart⟩
    rw [Item.innerChoice, ← List.append_assoc]
    exact hlast

end

/-- A line without attributes, with its helpers. -/
theorem line_apart {l : Line} (hl : l.Unattributed) (h : l.compile .w3c c = .ok c') (hapart : CompiledApart texts c d) :
    ∃ d', l.compile .attributed d = .ok d' ∧ CompiledApart (texts ++ l.literals) c' d' := by
  obtain ⟨alternatives, c₁, hchoice, rfl⟩ := (compile_unattributed hl.attributes hl.name.not_helper).1 h
  obtain ⟨alternatives', d₁, hchoice', happly, halternatives⟩ :=
    choiceSymbols_apart l.choice (fun s hs => (hl.items s hs).2) hchoice hapart
  refine ⟨_, (compile_unattributed hl.attributes hl.name.not_helper).2 ⟨alternatives', d₁, hchoice', rfl⟩, ?_⟩
  rw [Line.literals, ← List.append_assoc]
  exact happly.push ⟨alternatives', halternatives, rfl⟩

/-- Lines without attributes compile apart by their literals. -/
theorem compileLines_apart {lines : List Line} (h : ∀ l ∈ lines, l.Unattributed)
    (hcompile : compileLines .w3c c lines = .ok c') (hapart : CompiledApart texts c d) :
    ∃ d', compileLines .attributed d lines = .ok d' ∧ CompiledApart (texts ++ lines.flatMap Line.literals) c' d' := by
  induction lines generalizing texts c d with
  | nil =>
    obtain rfl := compileLines_nil.1 hcompile
    refine ⟨d, rfl, ?_⟩
    rw [List.flatMap_nil, List.append_nil]
    exact hapart
  | cons l lines ih =>
    rw [List.forall_mem_cons] at h
    obtain ⟨c₁, hfirst, hmore⟩ := compileLines_cons.1 hcompile
    obtain ⟨d₁, hfirst', hline⟩ := line_apart h.1 hfirst hapart
    obtain ⟨d', hmore', hlines⟩ := ih h.2 hmore hline
    refine ⟨d', compileLines_cons.2 ⟨d₁, hfirst', hmore'⟩, ?_⟩
    rw [List.flatMap_cons, ← List.append_assoc]
    exact hlines

/-- The rules of lines without attributes, in both notations. -/
theorem rulesOf_apart {lines : List Line} (h : ∀ l ∈ lines, l.Unattributed) {rules : List Rule}
    (hrules : rulesOf .w3c (grammarNode [] lines) = .ok rules) :
    ∃ rules', rulesOf .attributed (grammarNode [] lines) = .ok rules' ∧
      RulesApart (lines.flatMap Line.literals) rules rules' := by
  obtain ⟨n, hcompile⟩ := (rulesOf_bare fun l hl s hs => ((h l hl).items s hs).2).1 hrules
  have hempty : CompiledApart [] {} {} := ⟨.nil, rfl⟩
  obtain ⟨⟨rules', n'⟩, hcompile', hapart⟩ := compileLines_apart h hcompile hempty
  refine ⟨rules', ?_, hapart.rules⟩
  exact (rulesOf_bare fun l hl s hs i hi => (((h l hl).items s hs).2 i hi).attributed).2 ⟨n', hcompile'⟩

end Items

end Notation

namespace Dialect

open Notation

/-- **Every grammar of the W3C notation is one of the attributed notation.** The source is read as the same lines,
and its rules are the same ones in the same order, but for the literals without marks: each is replaced by what
comes of its text when that is taken apart. -/
theorem custom_of_w3c {source : String} {rules : List Rule} (h : w3c.rulesOf source = .ok rules) :
    ∃ (lines : List Line) (rules' : List Rule),
      (∃ root, readGrammarTree w3cParser source = .ok root ∧ root.outline isToken = grammarNode [] lines) ∧
      (∃ root, readGrammarTree attributedParser source = .ok root ∧ root.outline isToken = grammarNode [] lines) ∧
      custom.rulesOf source = .ok rules' ∧ RulesApart (lines.flatMap Line.literals) rules rules' := by
  obtain ⟨root, hroot, lines, hlines, houtline, hrules⟩ := unattributed_of_rulesOf h
  rw [w3cParser_eq] at hroot
  obtain ⟨root', hroot', hsame⟩ := follows_w3cTable.readGrammarTree start_w3cTable start_attributedTable hroot
  rw [← attributedParser_eq] at hroot'
  obtain ⟨rules', hrules', hapart⟩ := rulesOf_apart hlines hrules
  rw [houtline] at hsame
  have hread : ∃ root, readGrammarTree attributedParser source = .ok root ∧
      root.outline isToken = grammarNode [] lines := ⟨root', hroot', hsame⟩
  refine ⟨lines, rules', ⟨root, w3cParser_eq ▸ hroot, houtline⟩, hread, ?_, hapart⟩
  rw [rulesOf, bind_rulesOf_eq hread, hrules']

/-- Literals with marks and without them, in a group and around it. -/
def greetingGrammar : String := "A ::= \"hi\" (B | 'x y'+)* /* or so */\nB ::= [a-z] \"!\"?\n"

theorem greetingGrammar_custom : ∃ rules, w3c.rulesOf greetingGrammar = .ok rules ∧
    ∃ (lines : List Line) (rules' : List Rule),
      (∃ root, readGrammarTree w3cParser greetingGrammar = .ok root ∧ root.outline isToken = grammarNode [] lines) ∧
      (∃ root, readGrammarTree attributedParser greetingGrammar = .ok root ∧
        root.outline isToken = grammarNode [] lines) ∧
      custom.rulesOf greetingGrammar = .ok rules' ∧ RulesApart (lines.flatMap Line.literals) rules rules' := by
  have hread : (w3cRulesRead greetingGrammar).toOption.any (fun _ => true) = true := by decide +kernel
  obtain ⟨rules, hrules, -⟩ := exists_of_w3cRulesRead hread
  exact ⟨rules, hrules, custom_of_w3c hrules⟩

end Dialect

end Grammarian
