import Grammarian.Proofs.Notation.Surface

/-!
# Legibility is decided

Whether lines are read as what they are, their characters tell: each kind of lexeme is decided along its text, and
items along their groups. So what holds of legible lines can be put to use for lines that are at hand.
-/

namespace Grammarian.Notation

variable {text : List Char}

/-! ## Lexemes -/

instance decidableIsName : (text : List Char) → Decidable (IsName text)
  | [] => .isFalse fun ⟨_, _, h, _⟩ => List.cons_ne_nil _ _ h.symm
  | c :: cs => decidable_of_iff (Text.isAsciiLetter c = true ∧ ∀ d ∈ cs, isNameChar d = true)
      ⟨fun h => ⟨c, cs, rfl, h⟩, fun ⟨_, _, h, hname⟩ => by
        cases h
        exact hname⟩

instance decidableIsNumber : (text : List Char) → Decidable (IsNumber text)
  | [] => .isFalse fun ⟨_, _, h, _⟩ => List.cons_ne_nil _ _ h.symm
  | c :: cs => decidable_of_iff (('1' ≤ c ∧ c ≤ '9') ∧ ∀ d ∈ cs, Text.isAsciiDigit d = true)
      ⟨fun h => ⟨c, cs, rfl, h⟩, fun ⟨_, _, h, hnumber⟩ => by
        cases h
        exact hnumber⟩

/-- Quoted text begins and ends with its mark, which is not in between. -/
theorem isQuoted_cons_iff {q : Char} {cs : List Char} :
    IsQuoted (q :: cs) ↔ cs.getLast? = some q ∧ Literal.isQuote q = true ∧ q ∉ cs.dropLast := by
  constructor
  · rintro ⟨_, body, h, hq, hbody⟩
    obtain ⟨rfl, rfl⟩ := List.cons.inj h
    rw [List.getLast?_concat, List.dropLast_concat]
    exact ⟨rfl, hq, hbody⟩
  · rintro ⟨hlast, hq, hbody⟩
    refine ⟨q, cs.dropLast, ?_, hq, hbody⟩
    rw [List.dropLast_append_getLast? q hlast]

instance decidableIsQuoted : (text : List Char) → Decidable (IsQuoted text)
  | [] => .isFalse fun ⟨_, _, h, _⟩ => List.cons_ne_nil _ _ h.symm
  | _ :: _ => decidable_of_iff _ isQuoted_cons_iff.symm

/-- A code is a hash sign, an x, and letters or digits. -/
theorem isCode_iff : IsCode text ↔
    text.take 2 = ['#', 'x'] ∧ text.drop 2 ≠ [] ∧ ∀ d ∈ text.drop 2, Text.isAsciiAlnum d = true := by
  constructor
  · rintro ⟨cs, rfl, h⟩
    exact ⟨rfl, h⟩
  · rintro ⟨hmark, h⟩
    refine ⟨text.drop 2, ?_, h⟩
    have htext := (List.take_append_drop 2 text).symm
    rwa [hmark] at htext

instance decidableIsCode (text : List Char) : Decidable (IsCode text) := decidable_of_iff _ isCode_iff.symm

/-- What stands between the brackets, behind a caret. -/
def classBody (inner : List Char) : List Char := if inner.head? = some '^' then inner.tail else inner

/-- A class is a bracket, its body, and the bracket that closes it. -/
theorem isClass_cons_iff {c : Char} {cs : List Char} : IsClass (c :: cs) ↔ c = '[' ∧ cs.getLast? = some ']' ∧
    classBody cs.dropLast ≠ [] ∧ ∀ d ∈ classBody cs.dropLast, isClassChar d = true := by
  constructor
  · rintro ⟨caret, body, h, hcaret, hbody⟩
    obtain ⟨rfl, rfl⟩ := List.cons.inj h
    rw [← List.append_assoc, List.getLast?_concat, List.dropLast_concat]
    refine ⟨rfl, rfl, ?_⟩
    rcases hcaret with rfl | ⟨rfl, hclear⟩
    · exact hbody
    · rw [List.nil_append, classBody, if_neg fun hhead => ?_]
      · exact hbody
      · exact absurd (hclear '^' hhead) (by decide)
  · rintro ⟨rfl, hlast, hbody⟩
    have hcs := List.dropLast_append_getLast? ']' hlast
    by_cases hhead : cs.dropLast.head? = some '^'
    · rw [classBody, if_pos hhead] at hbody
      refine ⟨['^'], _, ?_, .inl rfl, hbody⟩
      rw [← List.append_assoc, List.singleton_append, List.cons_head?_tail hhead, hcs]
    · rw [classBody, if_neg hhead] at hbody
      refine ⟨[], _, ?_, .inr ⟨rfl, fun c hc => ?_⟩, hbody⟩
      · rw [List.nil_append, hcs]
      · exact decide_eq_false fun heq => hhead (heq ▸ hc)

instance decidableIsClass : (text : List Char) → Decidable (IsClass text)
  | [] => .isFalse fun ⟨_, _, h, _⟩ => List.cons_ne_nil _ _ h.symm
  | _ :: _ => decidable_of_iff _ isClass_cons_iff.symm

/-- A lexeme is a name, quoted text, a code or a class, as its kind says. -/
theorem lexeme_iff {kind : String} : Lexeme kind text ↔ kind = "NCName" ∧ IsName text ∨
    kind = "StringLiteral" ∧ IsQuoted text ∨ kind = "CharCode" ∧ IsCode text ∨ kind = "CharClass" ∧ IsClass text := by
  constructor
  · intro h
    cases h with
    | name h => exact .inl ⟨rfl, h⟩
    | quoted h => exact .inr (.inl ⟨rfl, h⟩)
    | code h => exact .inr (.inr (.inl ⟨rfl, h⟩))
    | charClass h => exact .inr (.inr (.inr ⟨rfl, h⟩))
  · rintro (⟨rfl, h⟩ | ⟨rfl, h⟩ | ⟨rfl, h⟩ | ⟨rfl, h⟩)
    · exact .name h
    · exact .quoted h
    · exact .code h
    · exact .charClass h

instance decidableLexeme (kind : String) (text : List Char) : Decidable (Lexeme kind text) :=
  decidable_of_iff _ lexeme_iff.symm

instance decidableIsMark (marks text : List Char) : Decidable (IsMark marks text) :=
  -- along the marks again, and not along all characters
  @instDecidableOr _ _ _ (List.decidableBEx (text = [·]) marks)

/-! ## Items and lines -/

namespace Item

variable {style : Style}

mutual

def isLegible (style : Style) : Item → Bool
  | token kind lead text tail =>
    decide (Lexeme kind text) && (decide (IsMark style.leadMarks lead) && decide (IsMark tailMarks tail))
  | group lead choice tail =>
    (decide (IsMark style.leadMarks lead) && decide (IsMark tailMarks tail))
      && (!choice.isEmpty && choiceIsLegible style choice)

def sequenceIsLegible (style : Style) : List Item → Bool
  | [] => true
  | i :: is => isLegible style i && sequenceIsLegible style is

def choiceIsLegible (style : Style) : List (List Item) → Bool
  | [] => true
  | s :: ss => (!s.isEmpty && sequenceIsLegible style s) && choiceIsLegible style ss

end

theorem sequenceIsLegible_eq_all (s : List Item) : sequenceIsLegible style s = s.all (isLegible style) := by
  induction s with
  | nil => rfl
  | cons i s ih => rw [sequenceIsLegible, List.all_cons, ih]

/-- The test over a choice says that its sequences are legible and none is empty. -/
theorem choiceIsLegible_iff {choice : List (List Item)} : choiceIsLegible style choice = true ↔
    ∀ s ∈ choice, s ≠ [] ∧ ∀ i ∈ s, isLegible style i = true := by
  induction choice with
  | nil => simp [choiceIsLegible]
  | cons s choice ih => simp [choiceIsLegible, sequenceIsLegible_eq_all, ih]

/-- The test says that the item is legible. -/
theorem isLegible_iff {i : Item} : i.isLegible style = true ↔ i.Legible style := by
  induction i with
  | token kind lead text tail =>
    simp only [isLegible, Bool.and_eq_true, decide_eq_true_eq]
    constructor
    · rintro ⟨htext, hlead, htail⟩
      exact .token htext hlead htail
    · rintro ⟨htext, hlead, htail⟩
      exact ⟨htext, hlead, htail⟩
  | group lead choice tail ih =>
    simp only [isLegible, Bool.and_eq_true, decide_eq_true_eq, choiceIsLegible_iff, Bool.not_eq_true',
      List.isEmpty_eq_false_iff]
    constructor
    · rintro ⟨⟨hlead, htail⟩, hne, hall⟩
      exact .group hlead htail hne (fun s hs => (hall s hs).1) fun s hs i hi => (ih s hs i hi).1 ((hall s hs).2 i hi)
    · intro h
      cases h with
      | group hlead htail hne hnes h =>
        exact ⟨⟨hlead, htail⟩, hne, fun s hs => ⟨hnes s hs, fun i hi => (ih s hs i hi).2 (h s hs i hi)⟩⟩

instance decidableLegible (style : Style) (i : Item) : Decidable (i.Legible style) :=
  decidable_of_iff _ isLegible_iff

end Item

instance decidableLegibleAttribute (a : List Char × List Char) : Decidable (LegibleAttribute a) :=
  inferInstanceAs (Decidable (IsName a.1 ∧ (IsName a.2 ∨ IsNumber a.2)))

instance Line.decidableLegible (l : Line) : Decidable l.Legible := decidable_of_iff _ (Line.legible_iff l).symm

end Grammarian.Notation
