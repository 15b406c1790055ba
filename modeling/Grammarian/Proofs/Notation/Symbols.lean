import Grammarian.Proofs.Notation.Helpers

/-!
# What tokens stand for

A token of the attributed notation is a reference, a literal that is not taken apart, patterns, or the helper for
a code or class with marks. An alternative that is one pattern is one token.
-/

namespace Grammarian.Notation

variable {parent : String} {scope : Attributes} {c c' : Compiled} {kind : String} {lead text tail : List Char}
  {symbols : List Symbol} {i : Item}

/-- What a token stands for. -/
inductive Yields (parent : String) (scope : Attributes) (c : Compiled) (lead text tail : List Char) :
    String → List Symbol → Compiled → Prop
  | name (h : IsName text) : Yields parent scope c lead text tail "NCName"
      [.reference (referenceOf lead (String.ofList text) tail)] c
  | quoted (h : IsQuoted text) (hmarks : ¬ (lead = [] ∧ tail = [])) :
      Yields parent scope c lead text tail "StringLiteral"
        [.reference (referenceOf lead (String.ofList text) tail)] c
  | literal (value : String) : Yields parent scope c lead text tail "StringLiteral" [.literal value] c
  | patterns {kind : String} {symbols : List Symbol} (hne : symbols ≠ [])
      (h : ∀ s ∈ symbols, ∃ p, s = .pattern p ∧ Writable p) :
      Yields parent scope c lead text tail kind symbols c
  | helper {kind : String} {p : Pattern} (hmarks : ¬ (lead = [] ∧ tail = [])) (hp : IsCoded p) :
      Yields parent scope c lead text tail kind [.reference (referenceOf lead (c.helperName parent) tail)]
        (c.countHelper.push (classHelper (c.helperName parent) p (scope.whitespace?.getD false)))

/-! ## Patterns -/

theorem singleChar?_eq_none {source : List Char} (h : 2 < source.length) : singleChar? source = none := by
  rw [singleChar?.eq_def]
  split
  next => simp at h
  next => simp at h
  next => rfl

theorem singleChar?_escapeChar (d : Char) : singleChar? (escapeChar d) = some d := by
  by_cases hmeta : Pattern.isMeta d = true
  · have hescape : escapeChar d = ['\\', d] := by rw [escapeChar, if_pos hmeta]
    rw [hescape]
    simp only [singleChar?, hescape, if_true]
  · have hescape : escapeChar d = [d] := by rw [escapeChar, if_neg hmeta]
    rw [hescape]
    simp only [singleChar?, hescape, if_true]

theorem isAsciiLetter_toUpper {d : Char} (h : Text.isAsciiLetter d = true) :
    Text.isAsciiLetter d.toUpper = true := by
  delta Char.toUpper
  simp only [Text.isAsciiLetter, Text.isAsciiUpper, Text.isAsciiLower, Bool.or_eq_true, Bool.and_eq_true,
    decide_eq_true_eq, Char.le_def] at h ⊢
  split
  next hlower => grind
  next => exact h

theorem isAsciiLetter_toLower {d : Char} (h : Text.isAsciiLetter d = true) :
    Text.isAsciiLetter d.toLower = true := by
  delta Char.toLower
  simp only [Text.isAsciiLetter, Text.isAsciiUpper, Text.isAsciiLower, Bool.or_eq_true, Bool.and_eq_true,
    decide_eq_true_eq, Char.le_def] at h ⊢
  split
  next hupper => grind
  next => exact h

/-- The class of both cases of a letter. -/
theorem isClass_cases {d : Char} (h : Text.isAsciiLetter d = true) : IsClass ['[', d.toUpper, d.toLower, ']'] := by
  have hchar : ∀ {e : Char}, Text.isAsciiLetter e = true → isClassChar e = true := fun he =>
    isClassChar_of_alnum (by simp [Text.isAsciiAlnum, he])
  refine ⟨[], [d.toUpper, d.toLower], rfl, .inr ⟨rfl, clear_cons.2 ?_⟩, List.cons_ne_nil _ _, ?_⟩
  · refine decide_eq_false fun heq => ?_
    have hcaret : Text.isAsciiLetter '^' = true := heq ▸ isAsciiLetter_toUpper h
    exact absurd hcaret (by decide)
  · simp [hchar (isAsciiLetter_toUpper h), hchar (isAsciiLetter_toLower h)]

/-- The pattern of a character of a literal. -/
theorem writable_charSource {ignoreCase : Bool} {d : Char} (hd : isSplittable d = true) {p : Pattern}
    (hp : Pattern.compile (String.ofList (charSource ignoreCase d)) = .ok p) : Writable p := by
  have hsource : p.source.toList = charSource ignoreCase d := by
    rw [Pattern.source_of_compile hp, String.toList_ofList]
  rw [charSource] at hsource
  split at hsource
  next hletter =>
    have hslash : '\\' ∉ ['[', d.toUpper, d.toLower, ']'] := by
      intro hmem
      simp only [List.mem_cons, List.not_mem_nil, or_false] at hmem
      rcases hmem with heq | heq | heq | heq
      · exact absurd heq (by decide)
      · exact absurd (heq ▸ isAsciiLetter_toUpper hletter.2) (by decide)
      · exact absurd (heq ▸ isAsciiLetter_toLower hletter.2) (by decide)
      · exact absurd heq (by decide)
    refine .inr ⟨singleChar?_eq_none (by rw [hsource]; simp), .inr ?_⟩
    rw [hsource, CharCode.restore_of_not_mem hslash]
    exact isClass_cases hletter.2
  next => exact .inl ⟨d, by rw [hsource, singleChar?_escapeChar], hd⟩

theorem length_expand_class (h : IsClass text) : 2 < (CharCode.expand text).length := by
  obtain ⟨caret, body, rfl, -, hne, -⟩ := h
  obtain ⟨c, cs, hbody⟩ : ∃ c cs, caret ++ body = c :: cs :=
    List.exists_cons_of_ne_nil (by simp [hne])
  obtain ⟨d, ds, hexpand, -⟩ := CharCode.expand_begins (c := c) cs
  have hsplit : '[' :: (caret ++ (body ++ [']'])) = '[' :: (c :: cs ++ [']']) := by
    rw [← hbody, List.append_assoc]
  have hclass : CharCode.expand ('[' :: (c :: cs ++ [']'])) = '[' :: (CharCode.expand (c :: cs) ++ [']']) := by
    simp only [CharCode.expand, CharCode.expandCount_cons (show '[' ≠ '#' by decide),
      CharCode.expandCount_concat (show Text.isAsciiAlnum ']' = false by decide)]
  rw [hsplit, hclass, hexpand]
  simp

/-- The pattern of a code or class. -/
theorem isCoded_code (h : IsCode text ∨ IsClass text) {p : Pattern}
    (hp : Pattern.compile (String.ofList (CharCode.expand text)) = .ok p) : IsCoded p := by
  have hsource : p.source.toList = CharCode.expand text := by
    rw [Pattern.source_of_compile hp, String.toList_ofList]
  have hregex := p.read_source
  rw [hsource] at hregex
  have hsingle : singleChar? p.source.toList = none := by
    rw [hsource]
    refine singleChar?_eq_none ?_
    rcases h with ⟨ds, rfl, hne, hds⟩ | hclass
    · obtain ⟨m, k, digits, hexpand, hm, hlength, -⟩ := CharCode.expand_code hne hds
      rw [hexpand]
      simp only [List.length_cons]
      omega
    · exact length_expand_class hclass
  refine ⟨hsingle, ?_⟩
  rw [hsource]
  exact h.imp (fun hcode => isCode_restore hcode hregex) CharCode.isClass_reworded

/-! ## Tokens -/

theorem mapM_ok {ε α β : Type} {f : α → Except ε β} {xs : List α} {ys : List β} (h : xs.mapM f = .ok ys) :
    ys.length = xs.length ∧ ∀ y ∈ ys, ∃ x ∈ xs, f x = .ok y := by
  induction xs generalizing ys with
  | nil =>
    cases h
    exact ⟨rfl, nofun⟩
  | cons x xs ih =>
    rw [List.mapM_cons] at h
    obtain ⟨y, hy, hmore⟩ := bind_eq_ok.1 h
    obtain ⟨more, hxs, hys⟩ := bind_eq_ok.1 hmore
    cases hys
    obtain ⟨hlength, hall⟩ := ih hxs
    refine ⟨by simp [hlength], List.forall_mem_cons.2 ⟨⟨x, List.mem_cons_self, hy⟩, fun z hz => ?_⟩⟩
    obtain ⟨w, hw, hwz⟩ := hall z hz
    exact ⟨w, List.mem_cons_of_mem x hw, hwz⟩

/-- A literal stays whole, or is taken apart. -/
theorem splitLiteral_ok {ignoreCase : Bool} (h : splitLiteral (String.ofList text) ignoreCase = .ok symbols) :
    symbols = [.ofText (String.ofList text)] ∨
      symbols ≠ [] ∧ ∀ s ∈ symbols, ∃ p, s = .pattern p ∧ Writable p := by
  rw [splitLiteral] at h
  simp only [String.toList_ofList] at h
  split at h
  next =>
    cases h
    exact .inl rfl
  next hsplit =>
    simp only [Bool.or_eq_true, Bool.not_eq_true', not_or, Bool.not_eq_true, Bool.not_eq_false,
      List.isEmpty_eq_false_iff] at hsplit
    obtain ⟨hne, hall⟩ := hsplit
    obtain ⟨hlength, hparts⟩ := mapM_ok h
    refine .inr ⟨?_, fun s hs => ?_⟩
    · rintro rfl
      exact hne (List.length_eq_zero_iff.1 hlength.symm)
    · obtain ⟨d, hd, hsymbol⟩ := hparts s hs
      have hsplittable := List.all_eq_true.1 hall d (List.mem_of_mem_tail (List.mem_of_mem_dropLast hd))
      cases hp : Pattern.compile (String.ofList (charSource ignoreCase d)) with
      | error e =>
        rw [hp] at hsymbol
        cases hsymbol
      | ok p =>
        rw [hp] at hsymbol
        cases hsymbol
        exact ⟨p, rfl, writable_charSource hsplittable hp⟩

theorem yields_class (hkind : kind = "CharCode" ∨ kind = "CharClass")
    (hlead : IsMark (Style.leadMarks .attributed) lead) (htail : IsMark tailMarks tail)
    (htext : IsCode text ∨ IsClass text)
    (h : (Item.token kind lead text tail).symbols .attributed parent scope c = .ok (symbols, c')) :
    Yields parent scope c lead text tail kind symbols c' := by
  cases hp : Pattern.compile (String.ofList (CharCode.expand text)) with
  | error e =>
    have hclass : (Item.token kind lead text tail).symbols .attributed parent scope c = .error (.pattern e) := by
      rcases hkind with rfl | rfl
      · simp only [Item.symbols, tokenSymbols, classSymbol, String.toList_ofList, hp]
        rfl
      · simp only [Item.symbols, tokenSymbols, classSymbol, String.toList_ofList, hp]
        rfl
    rw [hclass] at h
    cases h
  | ok p =>
    have hcoded := isCoded_code htext hp
    rw [symbols_class hkind hlead htail hp] at h
    split at h
    next hmarks =>
      cases h
      exact .patterns (List.cons_ne_nil _ _) (List.forall_mem_singleton.2 ⟨p, rfl, .inr hcoded⟩)
    next hmarks =>
      cases h
      exact .helper hmarks hcoded

/-- What a token that is read stands for. -/
theorem yields_token (hi : (Item.token kind lead text tail).Legible .attributed)
    (h : (Item.token kind lead text tail).symbols .attributed parent scope c = .ok (symbols, c')) :
    Yields parent scope c lead text tail kind symbols c' := by
  cases hi with
  | token htext hlead htail =>
    cases htext with
    | name hname =>
      cases h
      rw [marked_name hlead htail hname.bare (isLiteral_of_isName hname lead tail)]
      exact .name hname
    | quoted hquoted =>
      by_cases hmarks : lead = [] ∧ tail = []
      · obtain ⟨rfl, rfl⟩ := hmarks
        cases hsplit : splitLiteral (String.ofList text) (scope.flag "ignoreCase") with
        | error e =>
          simp only [Item.symbols, tokenSymbols, literalSymbols, leadMark_eq_empty, hlead, hsplit] at h
          cases h
        | ok more =>
          rw [symbols_plainLiteral hsplit] at h
          cases h
          rcases splitLiteral_ok hsplit with rfl | ⟨hne, hpatterns⟩
          · rw [ofText_quoted hquoted]
            exact .literal _
          · exact .patterns hne hpatterns
      · rw [symbols_markedLiteral hlead htail hquoted hmarks] at h
        cases h
        exact .quoted hquoted hmarks
    | code hcode => exact yields_class (.inl rfl) hlead htail (.inl hcode) h
    | charClass hclass => exact yields_class (.inr rfl) hlead htail (.inr hclass) h

theorem Yields.ne_nil (h : Yields parent scope c lead text tail kind symbols c') : symbols ≠ [] := by
  cases h with
  | patterns hne h => exact hne
  | name h => exact List.cons_ne_nil _ _
  | quoted h hmarks => exact List.cons_ne_nil _ _
  | literal value => exact List.cons_ne_nil _ _
  | helper hmarks hp => exact List.cons_ne_nil _ _

/-! ## Alternatives -/

section Alternatives

variable {s : List Item} {choice : List (List Item)} {alternatives : List (List Symbol)}

/-- The reference to the helper for a group. -/
theorem symbols_group_attributed (hi : (Item.group lead choice tail).Legible .attributed)
    (h : (Item.group lead choice tail).symbols .attributed parent scope c = .ok (symbols, c')) :
    ∃ alternatives c₁,
      Item.choiceSymbols .attributed (c.helperName parent) scope choice c.countHelper = .ok (alternatives, c₁) ∧
      symbols = [.reference (referenceOf lead (c.helperName parent) tail)] ∧
      c' = c₁.push (groupHelper (c.helperName parent) alternatives scope.whitespace?) := by
  cases hi with
  | group hlead htail hne hnes hall =>
    obtain ⟨alternatives, c₁, hchoice, rfl, rfl⟩ := symbols_group.1 h
    exact ⟨alternatives, c₁, hchoice, by rw [marked_helperName hlead htail], rfl⟩

theorem symbols_ne_nil (hi : i.Legible .attributed)
    (h : i.symbols .attributed parent scope c = .ok (symbols, c')) : symbols ≠ [] := by
  cases i with
  | token kind lead text tail => exact (yields_token hi h).ne_nil
  | group lead choice tail =>
    obtain ⟨alternatives, c₁, -, rfl, -⟩ := symbols_group_attributed hi h
    exact List.cons_ne_nil _ _

theorem sequenceSymbols_ne_nil (hne : s ≠ []) (hs : ∀ i ∈ s, i.Legible .attributed)
    (h : Item.sequenceSymbols .attributed parent scope s c = .ok (symbols, c')) : symbols ≠ [] := by
  obtain ⟨i, s, rfl⟩ := List.exists_cons_of_ne_nil hne
  obtain ⟨front, c₁, back, hfront, -, rfl⟩ := sequenceSymbols_cons.1 h
  exact List.append_ne_nil_of_left_ne_nil (symbols_ne_nil (hs i List.mem_cons_self) hfront) back

/-- Every alternative has symbols. -/
theorem choiceSymbols_ne_nil (hchoice : ∀ s ∈ choice, s ≠ [] ∧ ∀ i ∈ s, i.Legible .attributed)
    (h : Item.choiceSymbols .attributed parent scope choice c = .ok (alternatives, c')) :
    alternatives.length = choice.length ∧ ∀ a ∈ alternatives, a ≠ [] := by
  induction choice generalizing alternatives c with
  | nil =>
    obtain ⟨rfl, -⟩ := choiceSymbols_nil.1 h
    exact ⟨rfl, nofun⟩
  | cons s choice ih =>
    rw [List.forall_mem_cons] at hchoice
    obtain ⟨front, c₁, back, hfront, hback, rfl⟩ := choiceSymbols_cons.1 h
    obtain ⟨hlength, hall⟩ := ih hchoice.2 hback
    exact ⟨by simp [hlength],
      List.forall_mem_cons.2 ⟨sequenceSymbols_ne_nil hchoice.1.1 hchoice.1.2 hfront, hall⟩⟩

/-- An item that stands for a terminal needs no helper. -/
theorem symbols_terminal {t : Symbol} (hi : i.Legible .attributed)
    (h : i.symbols .attributed parent scope c = .ok (symbols, c')) (ht : t ∈ symbols)
    (hterminal : t.isTerminal = true) : c' = c ∧ ∀ p, t = .pattern p → Writable p := by
  cases i with
  | token kind lead text tail =>
    cases yields_token hi h with
    | patterns hne hall =>
      obtain ⟨q, rfl, hwritable⟩ := hall _ ht
      refine ⟨rfl, fun p hp => ?_⟩
      cases hp
      exact hwritable
    | literal value =>
      obtain rfl := List.mem_singleton.1 ht
      exact ⟨rfl, nofun⟩
    | name h =>
      obtain rfl := List.mem_singleton.1 ht
      cases hterminal
    | quoted h hmarks =>
      obtain rfl := List.mem_singleton.1 ht
      cases hterminal
    | helper hmarks hq =>
      obtain rfl := List.mem_singleton.1 ht
      cases hterminal
  | group lead choice tail =>
    obtain ⟨alternatives, c₁, -, rfl, -⟩ := symbols_group_attributed hi h
    obtain rfl := List.mem_singleton.1 ht
    cases hterminal

/-- Alternatives that are one terminal need no helper. -/
theorem choiceSymbols_terminal_attributed {t : Symbol}
    (hchoice : ∀ s ∈ choice, s ≠ [] ∧ ∀ i ∈ s, i.Legible .attributed)
    (h : Item.choiceSymbols .attributed parent scope choice c = .ok ([[t]], c')) (hterminal : t.isTerminal = true) :
    c' = c ∧ ∀ p, t = .pattern p → Writable p := by
  have hlength := (choiceSymbols_ne_nil hchoice h).1
  obtain ⟨s, rfl⟩ := List.length_eq_one_iff.1 hlength.symm
  obtain ⟨hne, hs⟩ := hchoice s List.mem_cons_self
  obtain ⟨front, c₁, back, hfront, hback, heq⟩ := choiceSymbols_cons.1 h
  obtain ⟨-, rfl⟩ := choiceSymbols_nil.1 hback
  obtain ⟨rfl, -⟩ := List.cons.inj heq
  obtain ⟨i, s, rfl⟩ := List.exists_cons_of_ne_nil hne
  obtain ⟨first, c₂, more, hfirst, hmore, hjoin⟩ := sequenceSymbols_cons.1 hfront
  obtain ⟨symbol, first, rfl⟩ := List.exists_cons_of_ne_nil (symbols_ne_nil (hs i List.mem_cons_self) hfirst)
  obtain ⟨rfl, hrest⟩ := List.cons.inj hjoin
  obtain ⟨rfl, rfl⟩ := List.append_eq_nil_iff.1 hrest.symm
  obtain rfl : s = [] := by
    by_contra hmoreItems
    exact sequenceSymbols_ne_nil hmoreItems (fun j hj => hs j (List.mem_cons_of_mem i hj)) hmore rfl
  obtain ⟨-, rfl⟩ := sequenceSymbols_nil.1 hmore
  exact symbols_terminal (hs i List.mem_cons_self) hfirst List.mem_cons_self hterminal

end Alternatives

end Grammarian.Notation
