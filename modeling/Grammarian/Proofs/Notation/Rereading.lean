import Grammarian.Proofs.Notation.Attributes
import Grammarian.Proofs.Notation.Symbols

/-!
# Rules read again

What is written of the rules of a grammar is read as these rules, as long as each of their symbols survives:
literals and patterns are written as texts that are read as they are, and a helper of one terminal, which is
written without parentheses, is the helper that a code or class with marks has.
-/

namespace Grammarian.Notation

/-! ## Symbols that survive -/

/-- A helper that a code or class with marks can have. -/
def isClassHelper (h : Rule) : Bool :=
  match h.alternatives with
  | [[.pattern p]] => (singleChar? p.source.toList).isNone
  | _ => false

/-- A reference to a helper that is written so that it is read as it is, in a rule with this attribute. -/
def helperSurvives (skips : Option Bool) (r : Reference) (h : Rule) : Bool :=
  !isLonely h || (!r.isPlain && isClassHelper h && h.implicitWhitespace = some (skips.getD false))

def symbolSurvives (rules : List Rule) (skips : Option Bool) : Symbol → Bool
  | .literal value => literalSurvives value.toList
  | .pattern p => patternSurvives p
  | .reference r => (helperOf? rules r.name).all (helperSurvives skips r)

/-- Rules that are written so that they are read as they are. -/
def rulesSurvive (rules : List Rule) : Bool :=
  rules.all fun r => r.alternatives.all (·.all (symbolSurvives rules r.implicitWhitespace))

/-! ## Symbols -/

section Symbols

variable {style : Style} {rules new more : List Rule} {depth n n' n'' : Nat} {parent : String}
  {scope : Attributes} {symbols symbols' front front' back back' : List Symbol}
  {alternatives alternatives' : List (List Symbol)} {s s' t : Symbol}

/-- The rules so far with others, and the number of helpers then. -/
def adding (c : Compiled) (new : List Rule) (n : Nat) : Compiled := ⟨c.rules ++ new, n⟩

/-- Adding rules twice is adding them once. -/
theorem adding_adding (c : Compiled) (new more : List Rule) (n n' : Nat) :
    adding (adding c new n) more n' = adding c (new ++ more) n' := by
  rw [adding, adding, adding, List.append_assoc]

theorem adding_nil (c : Compiled) : adding c [] c.helpers = c := by rw [adding, List.append_nil]

/-- Sequences one after another compile one after another. -/
theorem sequenceSymbols_append {s t : List Item} {c c₁ c₂ : Compiled}
    (hs : Item.sequenceSymbols style parent scope s c = .ok (front, c₁))
    (ht : Item.sequenceSymbols style parent scope t c₁ = .ok (back, c₂)) :
    Item.sequenceSymbols style parent scope (s ++ t) c = .ok (front ++ back, c₂) := by
  induction s generalizing c front with
  | nil =>
    obtain ⟨rfl, rfl⟩ := sequenceSymbols_nil.1 hs
    exact ht
  | cons i s ih =>
    obtain ⟨first, c₃, more, hfirst, hmore, rfl⟩ := sequenceSymbols_cons.1 hs
    exact sequenceSymbols_cons.2 ⟨first, c₃, more ++ back, hfirst, ih hmore, List.append_assoc _ _ _⟩

/-- Symbols from what is written of which others are read, with the helpers `new`. -/
structure Rereads (style : Style) (rules : List Rule) (depth : Nat) (parent : String) (scope : Attributes) (n : Nat)
    (symbols : List Symbol) (new : List Rule) (symbols' : List Symbol) (n' : Nat) : Prop where
  legible : ∀ s ∈ symbols, (written style rules depth s).Legible style
  reads : ∀ c : Compiled, c.helpers = n → Item.sequenceSymbols style parent scope
    (symbols.map (written style rules depth)) c = .ok (symbols', adding c new n')

namespace Rereads

theorem nil : Rereads style rules depth parent scope n [] [] [] n where
  legible := nofun
  reads := by
    rintro c rfl
    exact sequenceSymbols_nil.2 ⟨rfl, adding_nil c⟩

/-- One symbol, of whose item one symbol is read. -/
theorem single (hs : (written style rules depth s).Legible style)
    (h : ∀ c : Compiled, c.helpers = n →
      (written style rules depth s).symbols style parent scope c = .ok ([s'], adding c new n')) :
    Rereads style rules depth parent scope n [s] new [s'] n' where
  legible := List.forall_mem_singleton.2 hs
  reads := fun c hc =>
    sequenceSymbols_cons.2 ⟨[s'], _, [], h c hc, sequenceSymbols_nil.2 ⟨rfl, rfl⟩, (List.append_nil _).symm⟩

/-- Symbols one after another are read again one after another. -/
theorem append (hfront : Rereads style rules depth parent scope n front new front' n')
    (hback : Rereads style rules depth parent scope n' back more back' n'') :
    Rereads style rules depth parent scope n (front ++ back) (new ++ more) (front' ++ back') n'' where
  legible := List.forall_mem_append.2 ⟨hfront.legible, hback.legible⟩
  reads := by
    intro c hc
    rw [List.map_append, ← adding_adding c new more n' n'']
    exact sequenceSymbols_append (hfront.reads c hc) (hback.reads _ rfl)

end Rereads

/-- Alternatives from what is written of which others are read. -/
structure RereadsAll (style : Style) (rules : List Rule) (depth : Nat) (parent : String) (scope : Attributes) (n : Nat)
    (alternatives : List (List Symbol)) (new : List Rule) (alternatives' : List (List Symbol)) (n' : Nat) : Prop where
  legible : ∀ a ∈ alternatives, ∀ s ∈ a, (written style rules depth s).Legible style
  reads : ∀ c : Compiled, c.helpers = n → Item.choiceSymbols style parent scope
    (alternatives.map (·.map (written style rules depth))) c = .ok (alternatives', adding c new n')

namespace RereadsAll

theorem nil : RereadsAll style rules depth parent scope n [] [] [] n where
  legible := nofun
  reads := by
    rintro c rfl
    exact choiceSymbols_nil.2 ⟨rfl, adding_nil c⟩

/-- Alternatives are read again one after another. -/
theorem cons (hfront : Rereads style rules depth parent scope n symbols new symbols' n')
    (hback : RereadsAll style rules depth parent scope n' alternatives more alternatives' n'') :
    RereadsAll style rules depth parent scope n (symbols :: alternatives) (new ++ more) (symbols' :: alternatives')
      n'' where
  legible := List.forall_mem_cons.2 ⟨hfront.legible, hback.legible⟩
  reads := by
    intro c hc
    rw [List.map_cons, ← adding_adding c new more n' n'']
    exact choiceSymbols_cons.2 ⟨symbols', _, alternatives', hfront.reads c hc, hback.reads _ rfl, rfl⟩

end RereadsAll

/-! ## Terminals -/

variable {lead text tail : List Char} {kind value : String} {p : Pattern}

/-- A terminal that is read of what is written of it. -/
structure ReadsBack (style : Style) (scope : Attributes) (t : Symbol) : Prop where
  terminal : t.isTerminal = true
  legible : ∀ rules depth, (written style rules depth t).Legible style
  reads : ∀ rules depth parent c, (written style rules depth t).symbols style parent scope c = .ok ([t], c)

/-- A literal that survives reads back. -/
theorem readsBack_literal (h : literalSurvives value.toList = true) :
    ReadsBack .attributed scope (.literal value) where
  terminal := rfl
  legible rules depth := by
    rw [written_literal]
    exact .token (.quoted (isQuoted_of_survives h)) (.inl rfl) (.inl rfl)
  reads rules depth parent c := by
    rw [written_literal, symbols_plainLiteral (splitLiteral_of_survives h _), String.ofList_toList]

/-- A pattern that survives reads back. -/
theorem readsBack_pattern (hwritable : Writable p) (h : patternSurvives p = true)
    (hcase : scope.flag "ignoreCase" = false) : ReadsBack .attributed scope (.pattern p) where
  terminal := rfl
  legible rules depth := by
    rw [written_pattern]
    exact legible_patternItem hwritable
  reads rules depth parent c := by
    rw [written_pattern]
    exact symbols_patternItem hwritable h hcase

/-- A terminal that reads back is read again. -/
theorem rereads_terminal (ht : ReadsBack style scope t) : Rereads style rules depth parent scope n [t] [] [t] n := by
  refine .single (ht.legible rules depth) ?_
  rintro c rfl
  rw [adding_nil]
  exact ht.reads rules depth parent c

/-- Terminals that read back are read again. -/
theorem rereads_terminals (h : ∀ t ∈ symbols, ReadsBack style scope t) :
    Rereads style rules depth parent scope n symbols [] symbols n := by
  induction symbols with
  | nil => exact .nil
  | cons t symbols ih =>
    rw [List.forall_mem_cons] at h
    exact (rereads_terminal h.1).append (ih h.2)

/-! ## References -/

theorem helperOf?_eq_none {name : String} (h : isHelperName name = false) : helperOf? rules name = none := by
  have hnone : (rules.filter fun r => isHelperName r.name && r.name = name) = [] := by
    refine List.filter_eq_nil_iff.2 fun r _ hr => ?_
    simp only [Bool.and_eq_true, decide_eq_true_eq] at hr
    rw [hr.2, h] at hr
    exact Bool.false_ne_true hr.1
  rw [helperOf?, hnone]
  rfl

/-- A reference to a name or to quoted text is written as its token with its marks. -/
theorem written_token (htext : Lexeme kind text) (hkind : kind = "NCName" ∨ kind = "StringLiteral")
    (hlead : IsMark style.leadMarks lead) (htail : IsMark tailMarks tail) (depth : Nat) :
    written style rules depth (.reference (referenceOf lead (String.ofList text) tail)) =
      .token kind lead text tail := by
  have hnone : helperOf? rules (referenceOf lead (String.ofList text) tail).name = none :=
    helperOf?_eq_none htext.not_helper
  have hname : (referenceOf lead (String.ofList text) tail).name.toList = text := String.toList_ofList
  rw [written_of_none hnone, leadText_referenceOf hlead, tailMark_referenceOf htail, hname]
  cases htext with
  | name hname => rw [isLiteral_of_isName hname, if_neg Bool.false_ne_true]
  | quoted hquoted => rw [isLiteral_of_isQuoted hquoted, if_pos rfl]
  | code hcode => simp at hkind
  | charClass hclass => simp at hkind

/-- A name, or quoted text with marks, is a reference. -/
theorem symbols_reference (htext : Lexeme kind text) (hkind : kind = "NCName" ∨ kind = "StringLiteral")
    (hlead : IsMark style.leadMarks lead) (htail : IsMark tailMarks tail)
    (hmarks : kind = "StringLiteral" → ¬ (lead = [] ∧ tail = [])) (c : Compiled) :
    (Item.token kind lead text tail).symbols style parent scope c =
      .ok ([.reference (referenceOf lead (String.ofList text) tail)], c) := by
  cases htext with
  | name hname =>
    exact congrArg (fun s => Except.ok ([s], c))
      (marked_name hlead.attributed htail hname.bare (isLiteral_of_isName hname lead tail))
  | quoted hquoted => exact symbols_markedLiteral hlead.attributed htail hquoted (hmarks rfl)
  | code hcode => simp at hkind
  | charClass hclass => simp at hkind

/-- A reference to no helper is read again. -/
theorem rereads_reference (htext : Lexeme kind text) (hkind : kind = "NCName" ∨ kind = "StringLiteral")
    (hlead : IsMark style.leadMarks lead) (htail : IsMark tailMarks tail)
    (hmarks : kind = "StringLiteral" → ¬ (lead = [] ∧ tail = [])) :
    Rereads style rules depth parent scope n [.reference (referenceOf lead (String.ofList text) tail)] []
      [.reference (referenceOf lead (String.ofList text) tail)] n := by
  have hwritten := @written_token style rules lead text tail kind htext hkind hlead htail depth
  refine .single ?_ ?_
  · rw [hwritten]
    exact .token htext hlead htail
  · rintro c rfl
    rw [hwritten, adding_nil]
    exact symbols_reference htext hkind hlead htail hmarks c

/-! ## Helpers -/

variable {h : Rule}

/-- A rule that is found by its name if it is a helper, and all of whose symbols are of a kind. -/
structure Known (holds : Symbol → Bool) (rules : List Rule) (h : Rule) : Prop where
  found : isHelperName h.name = true → helperOf? rules h.name = some h
  holds : ∀ a ∈ h.alternatives, ∀ s ∈ a, holds s = true

/-- The name of the helper with this number. -/
def helperNameAt (n : Nat) (parent : String) : String := Compiled.helperName ⟨[], n⟩ parent

/-- A reference to a helper is written as the item of the helper. -/
theorem written_helper {name : String} (hh : helperOf? rules name = some h) (hlead : IsMark style.leadMarks lead)
    (htail : IsMark tailMarks tail) (depth : Nat) :
    written style rules (depth + 1) (.reference (referenceOf lead name tail)) =
      helperItem (written style rules depth) lead h tail := by
  rw [written_of_helper hh, leadText_referenceOf hlead, tailMark_referenceOf htail]

/-- A helper for a pattern is written as the pattern. -/
theorem helperItem_pattern (hpattern : h.alternatives = [[.pattern p]]) (item : Symbol → Item) :
    helperItem item lead h tail = patternItem lead p tail := by
  rw [helperItem, hpattern]

/-- A helper for a terminal is written as the terminal, where it has no marks. -/
theorem helperItem_terminal (hterminal : h.alternatives = [[t]]) (ht : t.isTerminal = true) :
    helperItem (written style rules depth) [] h [] = written style rules depth t := by
  cases t with
  | literal value => rw [written_literal, helperItem, hterminal]
  | pattern p => rw [written_pattern, helperItem_pattern hterminal]
  | reference r => cases ht

/-- A helper that needs parentheses is written as a group. -/
theorem helperItem_group {item : Symbol → Item} (hlonely : isLonely h = false) :
    helperItem item lead h tail = .group lead (h.alternatives.map (·.map item)) tail := by
  rw [helperItem]
  split
  next value heq => simp [isLonely, heq] at hlonely
  next p heq => simp [isLonely, heq] at hlonely
  next => rfl

/-- A code or class with marks, or one in parentheses with marks, has a helper again. -/
theorem rereads_class (hh : helperOf? rules h.name = some h) (hpattern : h.alternatives = [[.pattern p]])
    (hcoded : IsCoded p)
    (hcompile : Pattern.compile (String.ofList (CharCode.expand (CharCode.restore p.source.toList))) = .ok p)
    (hlead : IsMark style.leadMarks lead) (htail : IsMark tailMarks tail) (hmarks : ¬ (lead = [] ∧ tail = [])) :
    Rereads style rules (depth + 1) parent scope n [.reference (referenceOf lead h.name tail)]
      [classHelper (helperNameAt n parent) p (scope.whitespace?.getD false)]
      [.reference (referenceOf lead (helperNameAt n parent) tail)] (n + 1) := by
  obtain ⟨kind, hkind, hlexeme, hitem⟩ := patternItem_of_none lead tail hcoded
  have hwritten := ((written_helper hh hlead htail depth).trans (helperItem_pattern hpattern _)).trans hitem
  refine .single ?_ ?_
  · rw [hwritten]
    exact .token hlexeme hlead htail
  · rintro c rfl
    rw [hwritten, symbols_class hkind hlead.attributed htail hcompile, if_neg hmarks]
    rfl

/-- A terminal in parentheses takes the place of the helper. -/
theorem rereads_inlined (hh : helperOf? rules h.name = some h) (hterminal : h.alternatives = [[t]])
    (ht : ReadsBack style scope t) :
    Rereads style rules (depth + 1) parent scope n [.reference (referenceOf [] h.name [])] [] [t] n := by
  have hwritten : written style rules (depth + 1) (.reference (referenceOf [] h.name [])) =
      written style rules depth t :=
    (written_helper hh (.inl rfl) (.inl rfl) depth).trans (helperItem_terminal hterminal ht.terminal)
  refine .single ?_ ?_
  · rw [hwritten]
    exact ht.legible rules depth
  · rintro c rfl
    rw [hwritten, adding_nil]
    exact ht.reads rules depth parent c

/-- Where a helper is written as quoted text with marks, a reference to this text is read. -/
theorem rereads_quoted (hh : helperOf? rules h.name = some h)
    (hitem : helperItem (written style rules depth) lead h tail = .token "StringLiteral" lead text tail)
    (htext : IsQuoted text) (hlead : IsMark style.leadMarks lead) (htail : IsMark tailMarks tail)
    (hmarks : ¬ (lead = [] ∧ tail = [])) :
    Rereads style rules (depth + 1) parent scope n [.reference (referenceOf lead h.name tail)] []
      [.reference (referenceOf lead (String.ofList text) tail)] n := by
  have hwritten := (written_helper hh hlead htail depth).trans hitem
  refine .single ?_ ?_
  · rw [hwritten]
    exact .token (.quoted htext) hlead htail
  · rintro c rfl
    rw [hwritten, adding_nil]
    exact symbols_reference (.quoted htext) (.inr rfl) hlead htail (fun _ => hmarks) c

/-- A group has a helper again. -/
theorem rereads_group (hne : h.alternatives ≠ []) (hnes : ∀ a ∈ h.alternatives, a ≠ [])
    (hlonely : isLonely h = false) (hlead : IsMark style.leadMarks lead) (htail : IsMark tailMarks tail)
    (hh : helperOf? rules h.name = some h)
    (hall : RereadsAll style rules depth (helperNameAt n parent) scope (n + 1) h.alternatives new alternatives' n') :
    Rereads style rules (depth + 1) parent scope n [.reference (referenceOf lead h.name tail)]
      (new ++ [groupHelper (helperNameAt n parent) alternatives' scope.whitespace?])
      [.reference (referenceOf lead (helperNameAt n parent) tail)] n' := by
  have hwritten := (written_helper hh hlead htail depth).trans (helperItem_group hlonely)
  refine .single ?_ ?_
  · rw [hwritten]
    have hitems := legible_alternatives hnes hall.legible
    exact .group hlead htail (by simpa using hne) (fun s hs => (hitems s hs).1) fun s hs => (hitems s hs).2
  · rintro c rfl
    rw [hwritten]
    refine symbols_group.2 ⟨alternatives', _, hall.reads c.countHelper rfl, ?_, ?_⟩
    · rw [marked_helperName hlead.attributed htail]
      rfl
    · rw [adding, adding, Compiled.push, ← List.append_assoc]
      rfl

end Symbols

end Grammarian.Notation
