import Grammarian.Proofs.Notation.Bare
import Grammarian.Proofs.Notation.Recompiling
import Grammarian.Proofs.Notation.Rewording

/-!
# Rules of the W3C notation read again

What is written of them is read in other words. A group around one terminal is written without parentheses, so the
terminal takes the place of the helper, or a reference with marks stands for it, and the helpers left are numbered
anew.
-/

namespace Grammarian.Notation

variable {rules : List Rule} {c c' : Compiled} {parent : String} {kind : String} {lead text tail : List Char}
  {symbols : List Symbol} {choice : List (List Item)} {alternatives : List (List Symbol)} {t : Symbol}

/-! ## What items stand for -/

/-- The one symbol that a token stands for. -/
inductive StandsFor (parent : String) (c : Compiled) (lead text tail : List Char) :
    String → Symbol → Compiled → Prop
  | reference {kind : String} (htext : Lexeme kind text) (hkind : kind = "NCName" ∨ kind = "StringLiteral")
    (hmarks : kind = "StringLiteral" → ¬ (lead = [] ∧ tail = [])) :
    StandsFor parent c lead text tail kind (.reference (referenceOf lead (String.ofList text) tail)) c
  | terminal {kind : String} {t : Symbol} (ht : t.isTerminal = true) (hcoded : ∀ p, t = .pattern p → IsCoded p) :
    StandsFor parent c lead text tail kind t c
  | helper {kind : String} {p : Pattern} (hmarks : ¬ (lead = [] ∧ tail = [])) (hcoded : IsCoded p) :
    StandsFor parent c lead text tail kind (.reference (referenceOf lead (c.helperName parent) tail))
      (c.countHelper.push (classHelper (c.helperName parent) p false))

theorem standsFor_class (hkind : kind = "CharCode" ∨ kind = "CharClass") (hlead : IsMark (Style.leadMarks .w3c) lead)
    (htail : IsMark tailMarks tail) (htext : IsCode text ∨ IsClass text)
    (h : (Item.token kind lead text tail).symbols .w3c parent [] c = .ok (symbols, c')) :
    ∃ s, symbols = [s] ∧ StandsFor parent c lead text tail kind s c' := by
  cases hp : Pattern.compile (String.ofList (CharCode.expand text)) with
  | error e =>
    have hclass : (Item.token kind lead text tail).symbols .w3c parent [] c = .error (.pattern e) := by
      rcases hkind with rfl | rfl
      · simp only [Item.symbols, tokenSymbols, classSymbol, String.toList_ofList, hp]
        rfl
      · simp only [Item.symbols, tokenSymbols, classSymbol, String.toList_ofList, hp]
        rfl
    rw [hclass] at h
    cases h
  | ok p =>
    have hcoded := isCoded_code htext hp
    rw [symbols_class hkind hlead.attributed htail hp] at h
    split at h
    next hmarks =>
      cases h
      refine ⟨_, rfl, .terminal rfl fun q hq => ?_⟩
      cases hq
      exact hcoded
    next hmarks =>
      cases h
      exact ⟨_, rfl, .helper hmarks hcoded⟩

/-- A token stands for one symbol. -/
theorem standsFor_token (hi : (Item.token kind lead text tail).Legible .w3c)
    (h : (Item.token kind lead text tail).symbols .w3c parent [] c = .ok (symbols, c')) :
    ∃ s, symbols = [s] ∧ StandsFor parent c lead text tail kind s c' := by
  cases hi with
  | token htext hlead htail =>
    cases htext with
    | name hname =>
      cases h
      rw [marked_name hlead.attributed htail hname.bare (isLiteral_of_isName hname lead tail)]
      exact ⟨_, rfl, .reference (.name hname) (.inl rfl) fun heq => absurd heq (by decide)⟩
    | quoted hquoted =>
      cases h
      by_cases hmarks : lead = [] ∧ tail = []
      · obtain ⟨rfl, rfl⟩ := hmarks
        have htext : marked (leadMark []) (String.ofList text) (String.ofList []) = .ofText (String.ofList text) := by
          simp [marked, leadMark]
        rw [htext, ofText_quoted hquoted]
        exact ⟨_, rfl, .terminal rfl fun p hp => by cases hp⟩
      · rw [marked_quoted hlead.attributed htail hquoted hmarks]
        exact ⟨_, rfl, .reference (.quoted hquoted) (.inr rfl) fun _ => hmarks⟩
    | code hcode => exact standsFor_class (.inl rfl) hlead htail (.inl hcode) h
    | charClass hclass => exact standsFor_class (.inr rfl) hlead htail (.inr hclass) h

/-- The reference to the helper for a group. -/
theorem symbols_group_w3c (hi : (Item.group lead choice tail).Legible .w3c)
    (h : (Item.group lead choice tail).symbols .w3c parent [] c = .ok (symbols, c')) :
    ∃ alternatives c₁,
      Item.choiceSymbols .w3c (c.helperName parent) [] choice c.countHelper = .ok (alternatives, c₁) ∧
      symbols = [.reference (referenceOf lead (c.helperName parent) tail)] ∧
      c' = c₁.push (groupHelper (c.helperName parent) alternatives none) := by
  cases hi with
  | group hlead htail hne hnes hall =>
    obtain ⟨alternatives, c₁, hchoice, rfl, rfl⟩ := symbols_group.1 h
    exact ⟨alternatives, c₁, hchoice, by rw [marked_helperName hlead.attributed htail], rfl⟩

/-- An item stands for one symbol; if that is a terminal, there is no helper for it. -/
theorem symbols_one {i : Item} (hi : i.Legible .w3c) (h : i.symbols .w3c parent [] c = .ok (symbols, c')) :
    ∃ s, symbols = [s] ∧ (s.isTerminal = true → c' = c ∧ ∀ p, s = .pattern p → IsCoded p) := by
  cases i with
  | token kind lead text tail =>
    obtain ⟨s, rfl, hstands⟩ := standsFor_token hi h
    refine ⟨s, rfl, fun ht => ?_⟩
    cases hstands with
    | reference htext hkind hmarks => cases ht
    | terminal ht hcoded => exact ⟨rfl, hcoded⟩
    | helper hmarks hcoded => cases ht
  | group lead choice tail =>
    obtain ⟨alternatives, c₁, -, rfl, -⟩ := symbols_group_w3c hi h
    exact ⟨_, rfl, nofun⟩

theorem sequenceSymbols_length {s : List Item} (hs : ∀ i ∈ s, i.Legible .w3c)
    (h : Item.sequenceSymbols .w3c parent [] s c = .ok (symbols, c')) : symbols.length = s.length := by
  induction s generalizing c symbols with
  | nil =>
    obtain ⟨rfl, -⟩ := sequenceSymbols_nil.1 h
    rfl
  | cons i s ih =>
    rw [List.forall_mem_cons] at hs
    obtain ⟨front, c₁, back, hfront, hback, rfl⟩ := sequenceSymbols_cons.1 h
    obtain ⟨first, rfl, -⟩ := symbols_one hs.1 hfront
    rw [List.length_append, ih hs.2 hback, List.length_singleton, List.length_cons, Nat.add_comm]

/-- Every alternative has as many symbols as items. -/
theorem choiceSymbols_length (hchoice : ∀ s ∈ choice, ∀ i ∈ s, i.Legible .w3c)
    (h : Item.choiceSymbols .w3c parent [] choice c = .ok (alternatives, c')) :
    alternatives.map List.length = choice.map List.length := by
  induction choice generalizing c alternatives with
  | nil =>
    obtain ⟨rfl, -⟩ := choiceSymbols_nil.1 h
    rfl
  | cons s choice ih =>
    rw [List.forall_mem_cons] at hchoice
    obtain ⟨front, c₁, back, hfront, hback, rfl⟩ := choiceSymbols_cons.1 h
    rw [List.map_cons, List.map_cons, sequenceSymbols_length hchoice.1 hfront, ih hchoice.2 hback]

/-- No alternative is empty. -/
theorem choiceSymbols_full (hne : choice ≠ []) (hnes : ∀ s ∈ choice, s ≠ [])
    (hchoice : ∀ s ∈ choice, ∀ i ∈ s, i.Legible .w3c)
    (h : Item.choiceSymbols .w3c parent [] choice c = .ok (alternatives, c')) :
    alternatives ≠ [] ∧ ∀ a ∈ alternatives, a ≠ [] := by
  have hlength := choiceSymbols_length hchoice h
  constructor
  · rintro rfl
    exact hne (List.map_eq_nil_iff.1 hlength.symm)
  · rintro a ha rfl
    have hmem : ([] : List Symbol).length ∈ choice.map List.length := hlength ▸ List.mem_map_of_mem ha
    obtain ⟨s, hs, hzero⟩ := List.mem_map.1 hmem
    exact hnes s hs (List.length_eq_zero_iff.1 hzero)

/-- Alternatives that are one terminal need no helper. -/
theorem choiceSymbols_terminal (hchoice : ∀ s ∈ choice, ∀ i ∈ s, i.Legible .w3c)
    (h : Item.choiceSymbols .w3c parent [] choice c = .ok ([[t]], c')) (ht : t.isTerminal = true) :
    c' = c ∧ ∀ p, t = .pattern p → IsCoded p := by
  have hlength := choiceSymbols_length hchoice h
  obtain ⟨s, rfl⟩ : ∃ s, choice = [s] := List.length_eq_one_iff.1 (by simpa using (congrArg List.length hlength).symm)
  obtain ⟨i, rfl⟩ : ∃ i, s = [i] := List.length_eq_one_iff.1 (by simpa using hlength.symm)
  obtain ⟨front, c₁, back, hfront, hback, heq⟩ := choiceSymbols_cons.1 h
  obtain ⟨-, rfl⟩ := choiceSymbols_nil.1 hback
  obtain ⟨first, c₂, more, hfirst, hmore, rfl⟩ := sequenceSymbols_cons.1 hfront
  obtain ⟨rfl, rfl⟩ := sequenceSymbols_nil.1 hmore
  have hi : i.Legible .w3c := hchoice _ List.mem_cons_self _ List.mem_cons_self
  obtain ⟨s, rfl, hterminal⟩ := symbols_one hi hfirst
  cases heq
  exact hterminal ht

end Grammarian.Notation
