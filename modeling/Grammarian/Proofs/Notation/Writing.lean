import Grammarian.Notation.Emission
import Grammarian.Proofs.Notation.Compiling

/-!
# Lines that rules are written as

The text that rules are written as is the text of lines: `Rule.line`. Symbols become items, and a helper rule
becomes a group, or the one terminal it holds.
-/

namespace Grammarian

/-- A literal or a pattern. -/
def Symbol.isTerminal : Symbol → Bool
  | literal _ | pattern _ => true
  | reference _ => false

namespace Notation

/-- The item that a pattern is written as: a literal of one character, or a code or class. -/
def patternItem (lead : List Char) (p : Pattern) (tail : List Char) : Item :=
  match singleChar? p.source.toList with
  | some c => .token "StringLiteral" lead (Literal.quoted [c]) tail
  | none =>
    let text := CharCode.restore p.source.toList
    .token (if text.head? = some '#' then "CharCode" else "CharClass") lead text tail

theorem patternItem_text (lead : List Char) (p : Pattern) (tail : List Char) :
    (patternItem lead p tail).text = lead ++ ((patternText p).toList ++ tail) := by
  rw [patternItem, patternText]
  cases singleChar? p.source.toList with
  | some c => simp only [Item.text, Literal.quote, String.toList_ofList]
  | none => simp only [Item.text, String.toList_ofList]

/-- The item that a reference to a helper is written as, given those of symbols. -/
def helperItem (item : Symbol → Item) (lead : List Char) (h : Rule) (tail : List Char) : Item :=
  match h.alternatives with
  | [[.literal value]] => .token "StringLiteral" lead (Literal.quoted value.toList) tail
  | [[.pattern p]] => patternItem lead p tail
  | alternatives => .group lead (alternatives.map (·.map item)) tail

/-- The item that a symbol is written as, helpers nested up to `depth` levels. -/
def written (style : Style) (rules : List Rule) : (depth : Nat) → Symbol → Item
  | _, .literal value => .token "StringLiteral" [] (Literal.quoted value.toList) []
  | _, .pattern p => patternItem [] p []
  | depth, .reference r =>
    let lead := (leadText style r).toList
    let tail := r.tailMark.toList
    match helperOf? rules r.name, depth with
    | some h, depth + 1 => helperItem (written style rules depth) lead h tail
    | some _, 0 => .token "NCName" lead [] tail
    | none, _ => .token (if r.isLiteral then "StringLiteral" else "NCName") lead r.name.toList tail

/-- The items of alternatives are legible if those of their symbols are. -/
theorem legible_alternatives {style : Style} {alternatives : List (List Symbol)} {item : Symbol → Item}
    (hfull : ∀ a ∈ alternatives, a ≠ []) (hall : ∀ a ∈ alternatives, ∀ s ∈ a, (item s).Legible style) :
    ∀ s ∈ alternatives.map (·.map item), s ≠ [] ∧ ∀ i ∈ s, i.Legible style := by
  intro s hs
  obtain ⟨a, ha, rfl⟩ := List.mem_map.1 hs
  refine ⟨by simpa using hfull a ha, fun i hi => ?_⟩
  obtain ⟨symbol, hsymbol, rfl⟩ := List.mem_map.1 hi
  exact hall a ha symbol hsymbol

section Text

variable {style : Style} {rules : List Rule}

theorem choiceText_of_texts {alternatives : List (List Symbol)} {item : Symbol → Item} {text : Symbol → String}
    (h : ∀ s, (item s).text = (text s).toList) :
    Item.choiceText (alternatives.map (·.map item)) =
      (" | ".intercalate (alternatives.map fun a => " ".intercalate (a.map text))).toList := by
  have hsequence : ∀ a : List Symbol, Item.sequenceText (a.map item) = (" ".intercalate (a.map text)).toList := by
    intro a
    rw [Item.sequenceText, String.toList_intercalate, List.map_map, List.map_map]
    exact congrArg _ (List.map_congr_left fun s _ => h s)
  rw [Item.choiceText, String.toList_intercalate, List.map_map, List.map_map]
  exact congrArg _ (List.map_congr_left fun a _ => hsequence a)

@[simp] theorem written_literal (depth : Nat) (value : String) :
    written style rules depth (.literal value) = .token "StringLiteral" [] (Literal.quoted value.toList) [] := by
  cases depth <;> rfl

@[simp] theorem written_pattern (depth : Nat) (p : Pattern) :
    written style rules depth (.pattern p) = patternItem [] p [] := by
  cases depth <;> rfl

/-- Terminals are written alike over every list of rules. -/
theorem written_terminal {t : Symbol} (ht : t.isTerminal = true) (again : List Rule) (d depth : Nat) :
    written style again d t = written style rules depth t := by
  cases t with
  | literal value => rw [written_literal, written_literal]
  | pattern p => rw [written_pattern, written_pattern]
  | reference r => cases ht

/-- A reference to no helper is written as its name, or as its quoted text. -/
theorem written_of_none {r : Reference} (h : helperOf? rules r.name = none) (depth : Nat) :
    written style rules depth (.reference r) = .token (if r.isLiteral then "StringLiteral" else "NCName")
      (leadText style r).toList r.name.toList r.tailMark.toList := by
  unfold written
  simp only [h]

/-- A reference to a helper is written as the helper's body. -/
theorem written_of_helper {r : Reference} {h : Rule} (hh : helperOf? rules r.name = some h) (depth : Nat) :
    written style rules (depth + 1) (.reference r) =
      helperItem (written style rules depth) (leadText style r).toList h r.tailMark.toList := by
  conv_lhs => unfold written
  simp only [hh]

@[simp] theorem symbolText_literal (depth : Nat) (value : String) :
    symbolText style rules depth (.literal value) = Literal.quote value := by
  cases depth <;> rfl

@[simp] theorem symbolText_pattern (depth : Nat) (p : Pattern) :
    symbolText style rules depth (.pattern p) = patternText p := by
  cases depth <;> rfl

/-- A helper's body is written as its text. -/
theorem helperItem_text {depth : Nat}
    (h : ∀ s, (written style rules depth s).text = (symbolText style rules depth s).toList)
    (lead : List Char) (r : Rule) (tail : List Char) :
    (helperItem (written style rules depth) lead r tail).text = lead ++
      ((if isLonely r then alternativesText (symbolText style rules depth) r
        else "(" ++ alternativesText (symbolText style rules depth) r ++ ")").toList ++ tail) := by
  rw [helperItem]
  split
  next value hlonely => simp [hlonely, isLonely, alternativesText, Item.text, Literal.quote]
  next p hlonely => simp [hlonely, isLonely, alternativesText, patternItem_text]
  next hliteral hpattern =>
    have hgroup : isLonely r = false := by
      rw [isLonely]
      split
      · exact absurd ‹_› (hliteral _)
      · exact absurd ‹_› (hpattern _)
      · rfl
    rw [Item.text_group, choiceText_of_texts h, hgroup]
    simp [alternativesText]

/-- The text of the item is the text of the symbol. -/
theorem written_text (depth : Nat) (s : Symbol) :
    (written style rules depth s).text = (symbolText style rules depth s).toList := by
  induction depth generalizing s with
  | zero =>
    cases s with
    | literal value => simp [Item.text, Literal.quote]
    | pattern p => simp [patternItem_text]
    | reference r =>
      unfold written symbolText
      cases helperOf? rules r.name with
      | none => simp [Item.text]
      | some h => simp [Item.text]
  | succ depth ih =>
    cases s with
    | literal value => simp [Item.text, Literal.quote]
    | pattern p => simp [patternItem_text]
    | reference r =>
      unfold written symbolText
      cases helperOf? rules r.name with
      | none => simp [Item.text]
      | some h =>
        simp only [helperItem_text ih]
        simp

/-! ## Lines -/

/-- The attributes that a rule is written with. -/
def ruleAttributes (r : Rule) : List (List Char × List Char) :=
  (r.pinAt.map fun n => ("pin".toList, (toString n).toList)).toList
    ++ (r.recoverTo.map fun target => ("recoverUntil".toList, target.toList)).toList
    ++ (r.implicitWhitespace.map fun b => ("ws".toList, (if b then "implicit" else "explicit").toList)).toList
    ++ (if r.fragment then [("fragment".toList, "true".toList)] else [])
    ++ (if r.collapseSingleChild then [("simplifyWhenOneChildren".toList, "true".toList)] else [])

/-- The attributes of a rule are written one by one. -/
theorem toList_attributeTexts (r : Rule) :
    (attributeTexts r).map String.toList = (ruleAttributes r).map attributeText := by
  obtain ⟨name, alternatives, recoverTo, fragment, pinAt, implicitWhitespace, collapse⟩ := r
  simp only [attributeTexts, ruleAttributes, List.map_append]
  congr 1
  · congr 1
    · congr 1
      · congr 1
        · cases pinAt with
          | none => rfl
          | some n => simp [attributeText]
        · cases recoverTo with
          | none => rfl
          | some target => simp [attributeText]
      · cases implicitWhitespace with
        | none => rfl
        | some b => cases b <;> rfl
    · cases fragment <;> rfl
  · cases collapse <;> rfl

/-- The line that a rule is written as. -/
def ruleLine (rules : List Rule) (r : Rule) : Line where
  name := r.name.toList
  choice := r.alternatives.map (·.map (written .attributed rules rules.length))
  attributes := ruleAttributes r

/-- Behind a rule its attributes are written in braces. -/
theorem toList_trailerText (r : Rule) : (trailerText .attributed r).toList = attributesText (ruleAttributes r) := by
  have htexts := toList_attributeTexts r
  rw [trailerText, attributesText]
  cases h : attributeTexts r with
  | nil =>
    rw [h] at htexts
    rw [if_pos (List.map_eq_nil_iff.1 htexts.symm)]
    rfl
  | cons a as =>
    rw [h] at htexts
    have hne : ruleAttributes r ≠ [] := by
      intro hempty
      rw [hempty] at htexts
      cases htexts
    rw [if_neg hne, ← htexts]
    simp

/-- A rule is written as its line. -/
theorem toList_ruleText (rules : List Rule) (r : Rule) :
    (ruleText .attributed rules r).toList = (ruleLine rules r).text := by
  have hbody : (bodyText .attributed rules r).toList = Item.choiceText (ruleLine rules r).choice :=
    (choiceText_of_texts (written_text rules.length)).symm
  rw [ruleText, Line.text, ← hbody]
  simp [toList_trailerText, ruleLine]

/-- The rules that have a line of their own. -/
def productionsOf (rules : List Rule) : List Rule := rules.filter fun r => !isHelperName r.name

/-- **The text of rules is that of their lines.** -/
theorem grammarText_eq (rules : List Rule) : grammarText .attributed rules =
    String.ofList (((productionsOf rules).map (ruleLine rules)).flatMap Line.text) := by
  rw [← String.toList_inj, String.toList_ofList, grammarText, String.toList_join, List.flatMap_map,
    List.flatMap_map]
  exact List.flatMap_congr fun r _ => toList_ruleText rules r

end Text

end Notation

end Grammarian
