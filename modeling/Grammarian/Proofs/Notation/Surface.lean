import Mathlib.Tactic.MkIffOfInductiveProp
import Grammarian.Notation.Production
import Grammarian.Proofs.Notation.Lexemes

/-!
# Grammars as they are written

The parts of a grammar text that rules are made of: items with their marks, groups of alternatives, lines
with attributes. `text` is a part as it is written with one blank between items, and `nodes` are the
outlines of the nodes it is read as, however it is laid out.
-/

namespace Grammarian.Notation

/-- An item of an alternative, with the marks before and after it. -/
inductive Item where
  | token (kind : String) (lead text tail : List Char)
  | group (lead : List Char) (choice : List (List Item)) (tail : List Char)

/-- A production: its name, its alternatives and its attributes. -/
structure Line where
  name : List Char
  choice : List (List Item)
  attributes : List (List Char × List Char) := []

/-- The node of marks, where there are any. -/
def markNodes (kind : String) (marks : List Char) : List Node :=
  if marks = [] then [] else [.token kind marks]

/-- The first text, and the others with the separator before each. -/
theorem intercalate_cons_eq_append {α : Type} (separator x : List α) (xs : List (List α)) :
    separator.intercalate (x :: xs) = x ++ xs.flatMap (separator ++ ·) := by
  induction xs generalizing x with
  | nil => simp
  | cons y ys ih =>
    rw [List.intercalate_cons_cons, ih, List.flatMap_cons]
    simp

namespace Item

/-- Induction along the groups. -/
@[induction_eliminator]
theorem induction {P : Item → Prop}
    (token : ∀ kind lead text tail, P (token kind lead text tail))
    (group : ∀ lead choice tail, (∀ s ∈ choice, ∀ i ∈ s, P i) → P (group lead choice tail)) (i : Item) :
    P i := by
  refine @Item.rec P (fun choice => ∀ s ∈ choice, ∀ i ∈ s, P i) (fun s => ∀ i ∈ s, P i) token group ?_ ?_ ?_ ?_ i
  · simp
  · intro s choice hs hchoice
    simpa using ⟨hs, hchoice⟩
  · simp
  · intro i s hi hs
    simpa using ⟨hi, hs⟩

/-- Parts with one blank between them, and alternatives with a bar. -/
def joined (texts : List (List (List Char))) : List Char :=
  [' ', '|', ' '].intercalate (texts.map [' '].intercalate)

mutual

def text : Item → List Char
  | token _ lead text tail => lead ++ (text ++ tail)
  | group lead choice tail => lead ++ ('(' :: (joined (textsAll choice) ++ (')' :: tail)))

def texts : List Item → List (List Char)
  | [] => []
  | i :: is => text i :: texts is

def textsAll : List (List Item) → List (List (List Char))
  | [] => []
  | s :: ss => texts s :: textsAll ss

end

mutual

def nodes : Item → List Node
  | token kind lead text tail =>
    markNodes "PrimaryPreDecoration" lead ++ (.token kind text :: markNodes "PrimaryDecoration" tail)
  | group lead choice tail =>
    markNodes "PrimaryPreDecoration" lead
      ++ (.branch "SubItem" (choiceNodes choice) :: markNodes "PrimaryDecoration" tail)

def sequenceNodes : List Item → List Node
  | [] => []
  | i :: is => nodes i ++ sequenceNodes is

def choiceNodes : List (List Item) → List Node
  | [] => []
  | s :: ss => .branch "SequenceOrDifference" (sequenceNodes s) :: choiceNodes ss

end

theorem texts_eq_map (s : List Item) : texts s = s.map text := by
  induction s with
  | nil => rfl
  | cons i s ih => rw [texts, List.map_cons, ih]

theorem textsAll_eq_map (choice : List (List Item)) : textsAll choice = choice.map (·.map text) := by
  induction choice with
  | nil => rfl
  | cons s choice ih => rw [textsAll, List.map_cons, ih, texts_eq_map]

/-- Items with one blank between them. -/
def sequenceText (s : List Item) : List Char := [' '].intercalate (s.map text)

/-- Alternatives with a bar between them. -/
def choiceText (choice : List (List Item)) : List Char := [' ', '|', ' '].intercalate (choice.map sequenceText)

theorem choiceText_cons_cons (s next : List Item) (choice : List (List Item)) :
    choiceText (s :: next :: choice) = sequenceText s ++ ([' ', '|', ' '] ++ choiceText (next :: choice)) := by
  rw [choiceText, List.map_cons, List.map_cons, List.intercalate_cons_cons, List.append_assoc]
  rfl

/-- A group is written as its alternatives in parentheses. -/
theorem text_group (lead : List Char) (choice : List (List Item)) (tail : List Char) :
    (group lead choice tail).text = lead ++ ('(' :: (choiceText choice ++ (')' :: tail))) := by
  rw [text, joined, textsAll_eq_map, List.map_map]
  rfl

theorem sequenceNodes_eq_flatMap (s : List Item) : sequenceNodes s = s.flatMap nodes := by
  induction s with
  | nil => rfl
  | cons i s ih => rw [sequenceNodes, List.flatMap_cons, ih]

/-- The node of an alternative. -/
def sequenceNode (s : List Item) : Node := .branch "SequenceOrDifference" (s.flatMap nodes)

theorem choiceNodes_eq_map (choice : List (List Item)) : choiceNodes choice = choice.map sequenceNode := by
  induction choice with
  | nil => rfl
  | cons s choice ih => rw [choiceNodes, List.map_cons, ih, sequenceNodes_eq_flatMap, sequenceNode]

/-- A group reads as its marks and a node for its alternatives. -/
theorem nodes_group (lead : List Char) (choice : List (List Item)) (tail : List Char) :
    (group lead choice tail).nodes = markNodes "PrimaryPreDecoration" lead
      ++ (.branch "SubItem" (choice.map sequenceNode) :: markNodes "PrimaryDecoration" tail) := by
  rw [nodes, choiceNodes_eq_map]

end Item

/-! ## What can be read -/

/-- Characters between two of the same quotation mark. -/
def IsQuoted (text : List Char) : Prop :=
  ∃ q body, text = q :: (body ++ [q]) ∧ Literal.isQuote q = true ∧ q ∉ body

/-- The texts of the tokens that items are made of. -/
inductive Lexeme : String → List Char → Prop
  | name {text : List Char} (h : IsName text) : Lexeme "NCName" text
  | quoted {text : List Char} (h : IsQuoted text) : Lexeme "StringLiteral" text
  | code {text : List Char} (h : IsCode text) : Lexeme "CharCode" text
  | charClass {text : List Char} (h : IsClass text) : Lexeme "CharClass" text

/-- A string literal is quoted. -/
theorem Lexeme.isQuoted {text : List Char} (h : Lexeme "StringLiteral" text) : IsQuoted text := by
  generalize hkind : "StringLiteral" = kind at h
  cases h with
  | quoted h => exact h
  | name | code | charClass => simp at hkind

/-- No mark, or one of these. -/
def IsMark (marks text : List Char) : Prop := text = [] ∨ ∃ c ∈ marks, text = [c]

def tailMarks : List Char := ['?', '*', '+']

/-- The marks that a notation has before items. -/
def Style.leadMarks : Style → List Char
  | .w3c => ['&', '!']
  | .attributed => ['&', '!', '~']

/-- The attributed notation has the marks of the other one. -/
theorem IsMark.attributed {style : Style} {lead : List Char} (h : IsMark style.leadMarks lead) :
    IsMark (Style.leadMarks .attributed) lead := by
  cases style with
  | w3c => exact h.imp_right fun ⟨c, hc, htext⟩ => ⟨c, List.mem_of_mem_dropLast hc, htext⟩
  | attributed => exact h

/-- An item that is read as what it is. -/
inductive Item.Legible (style : Style) : Item → Prop
  | token {kind : String} {lead text tail : List Char} (htext : Lexeme kind text)
    (hlead : IsMark style.leadMarks lead) (htail : IsMark tailMarks tail) :
    Legible style (.token kind lead text tail)
  | group {lead tail : List Char} {choice : List (List Item)} (hlead : IsMark style.leadMarks lead)
    (htail : IsMark tailMarks tail) (hne : choice ≠ []) (hnes : ∀ s ∈ choice, s ≠ [])
    (h : ∀ s ∈ choice, ∀ i ∈ s, Legible style i) : Legible style (.group lead choice tail)

/-- The marks of a legible token. -/
theorem Item.Legible.marks {style : Style} {kind : String} {lead text tail : List Char}
    (h : (Item.token kind lead text tail).Legible style) : IsMark style.leadMarks lead ∧ IsMark tailMarks tail := by
  cases h with
  | token htext hlead htail => exact ⟨hlead, htail⟩

/-- The items of a legible group. -/
theorem Item.Legible.items {style : Style} {lead tail : List Char} {choice : List (List Item)}
    (h : (Item.group lead choice tail).Legible style) : ∀ s ∈ choice, ∀ i ∈ s, i.Legible style := by
  cases h with
  | group hlead htail hne hnes hitems => exact hitems

/-- An item that is legible in one dialect is legible in the custom dialect. -/
theorem Item.Legible.attributed {style : Style} {i : Item} (h : i.Legible style) : i.Legible .attributed := by
  induction i with
  | token kind lead text tail =>
    cases h with
    | token htext hlead htail => exact .token htext hlead.attributed htail
  | group lead choice tail ih =>
    cases h with
    | group hlead htail hne hnes h =>
      exact .group hlead.attributed htail hne hnes fun s hs i hi => ih s hs i hi (h s hs i hi)

/-! ## What items begin with -/

def opensPrimary (c : Char) : Bool :=
  Text.isAsciiLetter c || Literal.isQuote c || c = '#' || c = '[' || c = '('

def opensItem (c : Char) : Bool := opensPrimary c || c ∈ Style.leadMarks .attributed

/-- The characters that an item goes on with. -/
def extendsItem (c : Char) : Bool := isNameChar c || c ∈ tailMarks

/-- What opens a primary is no mark in front of one. -/
theorem not_mem_leadMarks {style : Style} {c : Char} (h : opensPrimary c = true) : c ∉ style.leadMarks := by
  have hmarks : ∀ d ∈ style.leadMarks, opensPrimary d = false := by
    cases style
    · decide
    · decide
  intro hmem
  rw [hmarks c hmem] at h
  cases h

theorem not_opensBlank {c : Char} (h : opensItem c = true) : opensBlank c = false := by
  cases hc : opensBlank c with
  | false => rfl
  | true =>
    simp only [opensBlank, isBlank, Bool.or_eq_true, decide_eq_true_eq] at hc
    rcases hc with (rfl | rfl) | rfl
    · exact absurd h (by decide)
    · exact absurd h (by decide)
    · exact absurd h (by decide)

theorem not_opensSpacing {c : Char} (h : opensItem c = true) : opensSpacing c = false := by
  cases hc : opensSpacing c with
  | false => rfl
  | true =>
    simp only [opensSpacing, isSpacing, isBlank, Bool.or_eq_true, decide_eq_true_eq] at hc
    rcases hc with (((rfl | rfl) | rfl) | rfl) | rfl
    all_goals exact absurd h (by decide)

theorem clear_opensBlank_of_opensSpacing {input : List Char} (h : Clear opensSpacing input) :
    Clear opensBlank input := by
  refine h.imp fun c hc => ?_
  simp only [opensBlank, opensSpacing, isSpacing, Bool.or_eq_true] at hc ⊢
  tauto

/-- No name starts with white space. -/
theorem IsName.clear_append {text : List Char} (h : IsName text) (rest : List Char) :
    Clear opensSpacing (text ++ rest) := by
  obtain ⟨c, cs, rfl, hc, -⟩ := h
  exact clear_cons.2 (not_opensSpacing (by simp [opensItem, opensPrimary, hc]))

/-- A lexeme opens a primary. -/
theorem Lexeme.opens {kind : String} {text : List Char} (h : Lexeme kind text) :
    ∃ c cs, text = c :: cs ∧ opensPrimary c = true := by
  cases h with
  | name h =>
    obtain ⟨c, cs, rfl, hc, -⟩ := h
    exact ⟨c, cs, rfl, by simp [opensPrimary, hc]⟩
  | quoted h =>
    obtain ⟨q, body, rfl, hq, -⟩ := h
    exact ⟨q, _, rfl, by simp [opensPrimary, hq]⟩
  | code h =>
    obtain ⟨cs, rfl, -⟩ := h
    exact ⟨'#', _, rfl, by decide⟩
  | charClass h =>
    obtain ⟨caret, body, rfl, -⟩ := h
    exact ⟨'[', _, rfl, by decide⟩

/-- A primary with its mark in front opens an item. -/
theorem IsMark.opens {style : Style} {lead text : List Char} (h : IsMark style.leadMarks lead)
    (htext : ∃ c cs, text = c :: cs ∧ opensPrimary c = true) :
    ∃ c cs, lead ++ text = c :: cs ∧ opensItem c = true := by
  rcases h with rfl | ⟨c, hc, rfl⟩
  · obtain ⟨c, cs, rfl, hc⟩ := htext
    exact ⟨c, cs, rfl, by simp [opensItem, hc]⟩
  · refine ⟨c, text, rfl, ?_⟩
    have hmark : c ∈ Style.leadMarks .attributed := by
      cases style with
      | w3c => exact List.mem_of_mem_dropLast hc
      | attributed => exact hc
    simp [opensItem, hmark]

/-- An item begins with a mark or with what it is. -/
theorem Item.Legible.opens {style : Style} {i : Item} (h : i.Legible style) :
    ∃ c cs, i.text = c :: cs ∧ opensItem c = true := by
  cases h with
  | token htext hlead htail =>
    refine hlead.opens ?_
    obtain ⟨c, cs, rfl, hc⟩ := htext.opens
    exact ⟨c, _, rfl, hc⟩
  | group hlead htail hne hnes h => exact hlead.opens ⟨'(', _, rfl, by decide⟩

/-- No legible item is empty. -/
theorem Item.Legible.text_ne_nil {style : Style} {i : Item} (h : i.Legible style) : i.text ≠ [] := by
  obtain ⟨c, cs, htext, -⟩ := h.opens
  rw [htext]
  exact List.cons_ne_nil c cs

/-! ## Lines -/

/-- A digit other than zero, and digits behind it. -/
def IsNumber (text : List Char) : Prop :=
  ∃ c cs, text = c :: cs ∧ ('1' ≤ c ∧ c ≤ '9') ∧ ∀ d ∈ cs, Text.isAsciiDigit d = true

/-- A value is a name or a number. -/
def LegibleAttribute (a : List Char × List Char) : Prop := IsName a.1 ∧ (IsName a.2 ∨ IsNumber a.2)

/-- Attributes as they are written between the braces. -/
def attributeText (a : List Char × List Char) : List Char := a.1 ++ ('=' :: a.2)

def attributeNode (a : List Char × List Char) : Node :=
  .branch "Attribute" [.token "NCName" a.1, .token "AttributeValue" a.2]

/-- Attributes in braces, with a blank before them. -/
def attributesText (as : List (List Char × List Char)) : List Char :=
  if as = [] then []
  else [' ', '\x7b', ' '] ++ ([',', ' '].intercalate (as.map attributeText) ++ [' ', '\x7d'])

def attributesNodes (as : List (List Char × List Char)) : List Node :=
  if as = [] then [] else [.branch "Attributes" (as.map attributeNode)]

namespace Line

def text (l : Line) : List Char :=
  l.name ++ ([' ', ':', ':', '=', ' '] ++ (Item.choiceText l.choice ++ (attributesText l.attributes ++ ['\n'])))

def node (l : Line) : Node :=
  .branch "Production"
    (.token "NCName" l.name :: (l.choice.map Item.sequenceNode ++ attributesNodes l.attributes))

/-- A line that is read as what it is. -/
@[mk_iff]
structure Legible (l : Line) : Prop where
  name : IsName l.name
  choice : l.choice ≠ []
  items : ∀ s ∈ l.choice, s ≠ [] ∧ ∀ i ∈ s, i.Legible .attributed
  attributes : ∀ a ∈ l.attributes, LegibleAttribute a

end Line

/-- The outline of a grammar of these lines, with attributes for all of them. -/
def grammarNode (as : List (List Char × List Char)) (lines : List Line) : Node :=
  .branch "Grammar" (attributesNodes as ++ lines.map Line.node)

end Grammarian.Notation
