import Grammarian.Proofs.Notation.Retelling
import Grammarian.Proofs.Notation.Stripping

/-!
# Items of the W3C notation read again

What is written of the symbols of an item is read as symbols that the rules are reworded to, as long as each of
their literals and patterns is read as it is.
-/

namespace Grammarian.Notation

open Rewording

/-! ## Rules that are read as they are written -/

/-- A symbol that is not read as another one: a literal has to lack one of the quotation marks, and the escapes of
a class have to be those that its codes become. -/
def writesBack : Symbol → Bool
  | .literal value => !('"' ∈ value.toList && '\'' ∈ value.toList)
  | .pattern p => CharCode.expand (CharCode.restore p.source.toList) = p.source.toList
  | .reference _ => true

def rulesWriteBack (rules : List Rule) : Bool :=
  rules.all fun r => r.alternatives.all (·.all writesBack)

/-- The helper for a group that is one terminal. -/
def isLonelyGroup (h : Rule) : Bool := isHelperName h.name && isLonely h && h.implicitWhitespace.isNone

variable {rules : List Rule} {depth n n' n'' : Nat} {parent name value : String} {lead text tail : List Char}
  {w w' : Rewording} {symbols symbols' front front' back back' : List Symbol}
  {alternatives alternatives' : List (List Symbol)} {s s' t : Symbol} {r r' h : Rule} {p : Pattern} {kind : String}

/-- A literal that writes back is quoted. -/
theorem isQuoted_of_writesBack (h : writesBack (.literal value) = true) : IsQuoted (Literal.quoted value.toList) := by
  refine Literal.isQuoted_quoted ?_
  rintro ⟨hdouble, hsingle⟩
  simp [writesBack, hdouble, hsingle] at h

/-- A pattern that writes back is compiled of its text. -/
theorem compile_of_writesBack (h : writesBack (.pattern p) = true) :
    Pattern.compile (String.ofList (CharCode.expand (CharCode.restore p.source.toList))) = .ok p := by
  rw [of_decide_eq_true h, String.ofList_toList, Pattern.compile_source]

/-- A coded terminal that writes back reads back. -/
theorem readsBack_w3c (ht : t.isTerminal = true) (hcoded : ∀ p, t = .pattern p → IsCoded p)
    (hwrites : writesBack t = true) : ReadsBack .w3c [] t := by
  cases t with
  | literal value =>
    refine ⟨rfl, fun rules depth => ?_, fun rules depth parent c => ?_⟩
    · rw [written_literal]
      exact .token (.quoted (isQuoted_of_writesBack hwrites)) (.inl rfl) (.inl rfl)
    · rw [written_literal]
      exact symbols_quote _
  | pattern p =>
    obtain ⟨kind, hkind, hlexeme, hitem⟩ := patternItem_of_none [] [] (hcoded p rfl)
    refine ⟨rfl, fun rules depth => ?_, fun rules depth parent c => ?_⟩
    · rw [written_pattern, hitem]
      exact .token hlexeme (.inl rfl) (.inl rfl)
    · rw [written_pattern, hitem, symbols_class hkind (.inl rfl) (.inl rfl) (compile_of_writesBack hwrites),
        if_pos ⟨rfl, rfl⟩]
  | reference r => cases ht

/-! ## What is read again -/

/-- A rewording where nothing but groups around one terminal has lost its helper. -/
structure Fits (w : Rewording) : Prop where
  links : ∀ l ∈ w, w.Link l
  left : ∀ h, (h, none) ∈ w → isLonelyGroup h = true

theorem Fits.nil : Fits [] := ⟨List.forall_mem_nil _, nofun⟩

theorem Fits.append (hw : Fits w) (hw' : Fits w') : Fits (w ++ w') where
  links := List.forall_mem_append.2 ⟨fun l hl => (hw.links l hl).mono fun _ => List.mem_append_left w',
    fun l hl => (hw'.links l hl).mono fun _ => List.mem_append_right w⟩
  left h hh := (List.mem_append.1 hh).elim (hw.left h) (hw'.left h)

theorem Fits.concat (hw : Fits w) (h : w.Pair r r') : Fits (w ++ [(r, some r')]) where
  links := by
    have hlink : w.Link (r, some r') := h
    refine List.forall_mem_append.2 ⟨fun l hl => (hw.links l hl).mono fun _ => List.mem_append_left _, ?_⟩
    exact List.forall_mem_singleton.2 (hlink.mono fun _ => List.mem_append_left _)
  left k hk := by
    rcases List.mem_append.1 hk with hk | hk
    · exact hw.left k hk
    · cases List.mem_singleton.1 hk

/-- The helper of a group around one terminal may be left out. -/
theorem Fits.lonely (hleaf : Leaf h) (hgroup : isLonelyGroup h = true) : Fits [(h, none)] where
  links := List.forall_mem_singleton.2 hleaf
  left k hk := by
    cases List.mem_singleton.1 hk
    exact hgroup

/-- Symbols that are read in other words from what is written of them. -/
structure Rewords (rules : List Rule) (depth : Nat) (parent : String) (n : Nat) (symbols : List Symbol)
    (w : Rewording) (symbols' : List Symbol) (n' : Nat) : Prop extends
    Retells .w3c rules depth parent [] n symbols w.after symbols' n' where
  fits : Fits w
  like : List.Forall₂ w.Symbols symbols symbols'

namespace Rewords

theorem nil : Rewords rules depth parent n [] [] [] n where
  toRetells := .nil
  fits := .nil
  like := .nil

/-- One symbol and the one that is read for it. -/
theorem single (hretells : Retells .w3c rules depth parent [] n [s] w.after [s'] n') (hfits : Fits w)
    (hlike : w.Symbols s s') : Rewords rules depth parent n [s] w [s'] n' where
  toRetells := hretells
  fits := hfits
  like := .cons hlike .nil

/-- Items one after another are reworded one after another. -/
theorem append (hfront : Rewords rules depth parent n front w front' n')
    (hback : Rewords rules depth parent n' back w' back' n'') :
    Rewords rules depth parent n (front ++ back) (w ++ w') (front' ++ back') n'' where
  toRetells := by
    rw [after_append]
    exact hfront.toRetells.append hback.toRetells
  fits := hfront.fits.append hback.fits
  like := by
    refine List.rel_append ?_ ?_
    · exact hfront.like.imp fun _ _ hs => hs.mono fun _ => List.mem_append_left w'
    · exact hback.like.imp fun _ _ hs => hs.mono fun _ => List.mem_append_right w

end Rewords

/-- Alternatives that are read in other words from what is written of them. -/
structure RewordsAll (rules : List Rule) (depth : Nat) (parent : String) (n : Nat)
    (alternatives : List (List Symbol)) (w : Rewording) (alternatives' : List (List Symbol)) (n' : Nat) : Prop extends
    RetellsAll .w3c rules depth parent [] n alternatives w.after alternatives' n' where
  fits : Fits w
  like : List.Forall₂ (List.Forall₂ w.Symbols) alternatives alternatives'

namespace RewordsAll

theorem nil : RewordsAll rules depth parent n [] [] [] n where
  toRetellsAll := .nil
  fits := .nil
  like := .nil

/-- Alternatives are reworded one after another. -/
theorem cons (hfront : Rewords rules depth parent n symbols w symbols' n')
    (hback : RewordsAll rules depth parent n' alternatives w' alternatives' n'') :
    RewordsAll rules depth parent n (symbols :: alternatives) (w ++ w') (symbols' :: alternatives') n'' where
  toRetellsAll := by
    rw [after_append]
    exact .cons hfront.toRetells hback.toRetellsAll
  fits := hfront.fits.append hback.fits
  like := by
    refine .cons ?_ ?_
    · exact hfront.like.imp fun _ _ hs => hs.mono fun _ => List.mem_append_left w'
    · exact hback.like.imp fun _ _ ha => ha.imp fun _ _ hs => hs.mono fun _ => List.mem_append_right w

end RewordsAll

/-! ## Tokens -/

/-- No decoration of the W3C dialect is a pin. -/
theorem pin_referenceOf (hlead : IsMark (Style.leadMarks .w3c) lead) (name : String) (tail : List Char) :
    (referenceOf lead name tail).pin = false := by
  refine decide_eq_false ?_
  rcases hlead with rfl | ⟨m, hm, rfl⟩
  · decide
  · simp only [Style.leadMarks, List.mem_cons, List.not_mem_nil, or_false] at hm
    rcases hm with rfl | rfl
    · decide
    · decide

/-- A terminal stays what it is. -/
theorem rewords_terminal (ht : ReadsBack .w3c [] t) : Rewords rules depth parent n [t] [] [t] n :=
  .single (retells_terminal ht) .nil (.terminal ht.terminal)

/-- A reference to no helper stays what it is. -/
theorem rewords_reference (htext : Lexeme kind text) (hkind : kind = "NCName" ∨ kind = "StringLiteral")
    (hlead : IsMark (Style.leadMarks .w3c) lead) (htail : IsMark tailMarks tail)
    (hmarks : kind = "StringLiteral" → ¬ (lead = [] ∧ tail = [])) :
    Rewords rules depth parent n [.reference (referenceOf lead (String.ofList text) tail)] []
      [.reference (referenceOf lead (String.ofList text) tail)] n :=
  .single (retells_reference htext hkind hlead htail hmarks) .nil
    (.itself htext.not_helper (pin_referenceOf hlead _ tail))

/-! ## Helpers -/

/-- A code or class with marks, or one in parentheses with marks, has a helper again. -/
theorem rewords_class (hh : helperOf? rules h.name = some h) (hleaf : Leaf h)
    (hpattern : h.alternatives = [[.pattern p]]) (hcoded : IsCoded p) (hwrites : writesBack (.pattern p) = true)
    (hlead : IsMark (Style.leadMarks .w3c) lead) (htail : IsMark tailMarks tail)
    (hmarks : ¬ (lead = [] ∧ tail = [])) :
    Rewords rules (depth + 1) parent n [.reference (referenceOf lead h.name tail)]
      [(h, some (classHelper (helperNameAt n parent) p false))]
      [.reference (referenceOf lead (helperNameAt n parent) tail)] (n + 1) := by
  refine .single (retells_class hh hpattern hcoded (compile_of_writesBack hwrites) hlead htail hmarks) ⟨?_, ?_⟩ ?_
  · refine List.forall_mem_singleton.2 (Pair.mk hleaf.plain ⟨?_, rfl, rfl, rfl⟩ ?_ ?_ ?_ (fun _ => hleaf.dissolves) ?_)
    · intro hskips
      cases hskips
    · rw [hleaf.dissolves]
      rfl
    · rw [hleaf.helper]
      exact isHelperName_helperName _ _
    · intro hname
      rw [hleaf.helper] at hname
      cases hname
    · rw [hpattern]
      exact .cons (.cons (.terminal rfl) .nil) .nil
  · intro k hk
    simp at hk
  · exact .renamed (r := referenceOf lead h.name tail) List.mem_cons_self rfl hleaf.helper
      (pin_referenceOf hlead _ tail)

/-- A terminal in parentheses takes the place of the helper. -/
theorem rewords_inlined (hh : helperOf? rules h.name = some h) (hleaf : Leaf h) (hgroup : isLonelyGroup h = true)
    (hterminal : h.alternatives = [[t]]) (ht : ReadsBack .w3c [] t) :
    Rewords rules (depth + 1) parent n [.reference (referenceOf [] h.name [])] [(h, none)] [t] n :=
  .single (retells_inlined hh hterminal ht) (.lonely hleaf hgroup) (.inlined List.mem_cons_self hterminal)

/-- Of a literal in parentheses with marks, a reference to the quoted text is read. -/
theorem rewords_quoted (hh : helperOf? rules h.name = some h) (hleaf : Leaf h) (hgroup : isLonelyGroup h = true)
    (hterminal : h.alternatives = [[.literal value]]) (hwrites : writesBack (.literal value) = true)
    (hlead : IsMark (Style.leadMarks .w3c) lead) (htail : IsMark tailMarks tail)
    (hmarks : ¬ (lead = [] ∧ tail = [])) :
    Rewords rules (depth + 1) parent n [.reference (referenceOf lead h.name tail)] [(h, none)]
      [.reference (referenceOf lead (Literal.quote value) tail)] n := by
  have hitem : helperItem (written .w3c rules depth) lead h tail =
      .token "StringLiteral" lead (Literal.quoted value.toList) tail := by
    rw [helperItem, hterminal]
  refine .single (retells_quoted hh hitem (isQuoted_of_writesBack hwrites) hlead htail hmarks)
    (.lonely hleaf hgroup) ?_
  exact .quoted (r := referenceOf lead h.name tail) List.mem_cons_self hterminal rfl (pin_referenceOf hlead _ tail)

/-- A group has a helper again. -/
theorem rewords_group (hne : alternatives ≠ []) (hnes : ∀ a ∈ alternatives, a ≠ [])
    (hhelper : isHelperName name = true) (hh : helperOf? rules name = some (groupHelper name alternatives none))
    (hlonely : isLonely (groupHelper name alternatives none) = false) (hlead : IsMark (Style.leadMarks .w3c) lead)
    (htail : IsMark tailMarks tail)
    (hall : RewordsAll rules depth (helperNameAt n parent) (n + 1) alternatives w alternatives' n') :
    Rewords rules (depth + 1) parent n [.reference (referenceOf lead name tail)]
      (w ++ [(groupHelper name alternatives none, some (groupHelper (helperNameAt n parent) alternatives' none))])
      [.reference (referenceOf lead (helperNameAt n parent) tail)] n' := by
  have hpair : w.Pair (groupHelper name alternatives none)
      (groupHelper (helperNameAt n parent) alternatives' none) := by
    refine Pair.mk ⟨nofun, rfl, rfl, rfl⟩ ⟨nofun, rfl, rfl, rfl⟩ rfl ?_ ?_ (fun _ => rfl) hall.like
    · exact (isHelperName_helperName _ _).trans hhelper.symm
    · intro hname
      exact absurd (hhelper.symm.trans hname) (by decide)
  refine .single ?_ (hall.fits.concat hpair) ?_
  · rw [after_concat]
    exact retells_group (h := groupHelper name alternatives none) hne hnes hlonely hlead htail hh hall.toRetellsAll
  · exact .renamed (r := referenceOf lead name tail) (List.mem_append_right _ List.mem_cons_self) rfl hhelper
      (pin_referenceOf hlead _ tail)

/-! ## Items -/

variable {c c' : Compiled} {new : List Rule} {choice : List (List Item)}

/-- A token's symbols are reworded. -/
theorem token_rewords (hi : (Item.token kind lead text tail).Legible .w3c)
    (h : (Item.token kind lead text tail).symbols .w3c name [] c = .ok (symbols, c'))
    (hnew : c'.rules = c.rules ++ new) (hknown : ∀ r ∈ new, Known writesBack rules r)
    (hwrites : ∀ s ∈ symbols, writesBack s = true) (depth : Nat) (parent : String) (n : Nat)
    (hdepth : new.length ≤ depth) :
    ∃ w symbols' n', w.before = new ∧ Rewords rules depth parent n symbols w symbols' n' := by
  obtain ⟨hlead, htail⟩ := hi.marks
  have hsame : c' = c → new = [] := by
    rintro rfl
    simpa using hnew
  obtain ⟨s, rfl, hstands⟩ := standsFor_token hi h
  cases hstands with
  | reference htext hkind hmarks =>
    rw [hsame rfl]
    exact ⟨[], _, n, rfl, rewords_reference htext hkind hlead htail hmarks⟩
  | terminal ht hcoded =>
    rw [hsame rfl]
    exact ⟨[], _, n, rfl, rewords_terminal (readsBack_w3c ht hcoded (hwrites _ List.mem_cons_self))⟩
  | @helper p hmarks hcoded =>
    obtain rfl : new = [classHelper (c.helperName name) p false] := (List.append_cancel_left hnew).symm
    obtain ⟨depth, rfl⟩ : ∃ d, depth = d + 1 := Nat.exists_eq_add_one.2 hdepth
    have hname : isHelperName (c.helperName name) = true := isHelperName_helperName c name
    have hknown := hknown _ List.mem_cons_self
    have hleaf : Leaf (classHelper (c.helperName name) p false) :=
      ⟨⟨nofun, rfl, rfl, rfl⟩, hname, rfl, _, rfl, rfl⟩
    exact ⟨_, _, n + 1, rfl, rewords_class (hknown.found hname) hleaf rfl hcoded
      (hknown.holds _ List.mem_cons_self _ List.mem_cons_self) hlead htail hmarks⟩

/-- A group around one terminal. -/
theorem lonely_rewords (hname : isHelperName name = true) (ht : t.isTerminal = true)
    (hcoded : ∀ p, t = .pattern p → IsCoded p) (hknown : Known writesBack rules (groupHelper name [[t]] none))
    (hlead : IsMark (Style.leadMarks .w3c) lead) (htail : IsMark tailMarks tail) :
    ∃ w symbols' n', w.before = [groupHelper name [[t]] none] ∧
      Rewords rules (depth + 1) parent n [.reference (referenceOf lead name tail)] w symbols' n' := by
  have hwrites : writesBack t = true := hknown.holds _ List.mem_cons_self _ List.mem_cons_self
  have hleaf : Leaf (groupHelper name [[t]] none) := ⟨⟨nofun, rfl, rfl, rfl⟩, hname, rfl, t, ht, rfl⟩
  have hgroup : isLonelyGroup (groupHelper name [[t]] none) = true := by
    have hlonely : isLonely (groupHelper name [[t]] none) = true := isLonely_of_terminal ht rfl
    have hhelper : isHelperName (groupHelper name [[t]] none).name = true := hname
    rw [isLonelyGroup, hlonely, hhelper]
    rfl
  by_cases hmarks : lead = [] ∧ tail = []
  · obtain ⟨rfl, rfl⟩ := hmarks
    exact ⟨_, _, n, rfl, rewords_inlined (hknown.found hname) hleaf hgroup rfl (readsBack_w3c ht hcoded hwrites)⟩
  · cases t with
    | literal value =>
      exact ⟨_, _, n, rfl, rewords_quoted (hknown.found hname) hleaf hgroup rfl hwrites hlead htail hmarks⟩
    | pattern p =>
      exact ⟨_, _, n + 1, rfl,
        rewords_class (hknown.found hname) hleaf rfl (hcoded p rfl) hwrites hlead htail hmarks⟩
    | reference r => cases ht

/-- A group's symbols are reworded, where those of its alternatives are. -/
theorem group_rewords (hi : (Item.group lead choice tail).Legible .w3c)
    (hchoice : ∀ {name : String} {c c' : Compiled} {alternatives : List (List Symbol)} {new : List Rule},
      Item.choiceSymbols .w3c name [] choice c = .ok (alternatives, c') → c'.rules = c.rules ++ new →
      (∀ r ∈ new, Known writesBack rules r) → (∀ a ∈ alternatives, ∀ s ∈ a, writesBack s = true) →
      ∀ (depth : Nat) (parent : String) (n : Nat), new.length ≤ depth →
        ∃ w alternatives' n', w.before = new ∧ RewordsAll rules depth parent n alternatives w alternatives' n')
    (h : (Item.group lead choice tail).symbols .w3c name [] c = .ok (symbols, c'))
    (hnew : c'.rules = c.rules ++ new) (hknown : ∀ r ∈ new, Known writesBack rules r) (depth : Nat) (parent : String)
    (n : Nat) (hdepth : new.length ≤ depth) :
    ∃ w symbols' n', w.before = new ∧ Rewords rules depth parent n symbols w symbols' n' := by
  obtain ⟨alternatives, c₁, hcompiled, rfl, rfl⟩ := symbols_group_w3c hi h
  cases hi with
  | group hlead htail hne hnes hitems =>
    obtain ⟨inner, hinner⟩ := choiceSymbols_grows choice hcompiled
    obtain rfl : new = inner ++ [groupHelper (c.helperName name) alternatives none] := by
      rw [Compiled.push, hinner.rules, List.append_assoc] at hnew
      exact (List.append_cancel_left hnew).symm
    have hname : isHelperName (c.helperName name) = true := isHelperName_helperName c name
    have hhelper := hknown _ List.mem_concat_self
    obtain ⟨depth, rfl⟩ : ∃ d, depth = d + 1 := by
      rw [List.length_append] at hdepth
      exact Nat.exists_eq_add_one.2 (Nat.lt_of_lt_of_le (Nat.succ_pos _) hdepth)
    by_cases hlonely : isLonely (groupHelper (c.helperName name) alternatives none) = true
    · obtain ⟨t, ht, halternatives⟩ := exists_of_isLonely hlonely
      obtain rfl : alternatives = [[t]] := halternatives
      obtain ⟨rfl, hcoded⟩ := choiceSymbols_terminal hitems hcompiled ht
      obtain rfl : inner = [] := by simpa using hinner.rules
      exact lonely_rewords hname ht hcoded hhelper hlead htail
    · obtain ⟨hne, hnes⟩ := choiceSymbols_full hne hnes hitems hcompiled
      obtain ⟨w, alternatives', n', rfl, hall⟩ := hchoice hcompiled hinner.rules
        (fun r hr => hknown r (List.mem_append_left _ hr)) hhelper.holds depth (helperNameAt n parent) (n + 1)
        (by simpa using hdepth)
      exact ⟨_, _, n', before_concat w _ _, rewords_group hne hnes hname (hhelper.found hname)
        (Bool.eq_false_iff.2 hlonely) hlead htail hall⟩

mutual

/-- An item is read in other words from what is written of its symbols. -/
theorem item_rewords : (i : Item) → i.Legible .w3c →
    ∀ {name : String} {c c' : Compiled} {symbols : List Symbol} {new : List Rule},
      i.symbols .w3c name [] c = .ok (symbols, c') → c'.rules = c.rules ++ new → (∀ r ∈ new, Known writesBack rules r) →
      (∀ s ∈ symbols, writesBack s = true) → ∀ (depth : Nat) (parent : String) (n : Nat), new.length ≤ depth →
        ∃ w symbols' n', w.before = new ∧ Rewords rules depth parent n symbols w symbols' n'
  | .token kind lead text tail, hi, _, _, _, _, _, h, hnew, hknown, hwrites => token_rewords hi h hnew hknown hwrites
  | .group lead choice tail, hi, _, _, _, _, _, h, hnew, hknown, _ =>
    group_rewords hi (choice_rewords choice hi.items) h hnew hknown

/-- The symbols of a sequence are reworded. -/
theorem sequence_rewords : (s : List Item) → (∀ i ∈ s, i.Legible .w3c) →
    ∀ {name : String} {c c' : Compiled} {symbols : List Symbol} {new : List Rule},
      Item.sequenceSymbols .w3c name [] s c = .ok (symbols, c') → c'.rules = c.rules ++ new →
      (∀ r ∈ new, Known writesBack rules r) → (∀ s ∈ symbols, writesBack s = true) →
      ∀ (depth : Nat) (parent : String) (n : Nat), new.length ≤ depth →
        ∃ w symbols' n', w.before = new ∧ Rewords rules depth parent n symbols w symbols' n'
  | [], hs, name, c, c', symbols, new, h, hnew, hknown, hwrites, depth, parent, n, hdepth => by
    obtain ⟨rfl, rfl⟩ := sequenceSymbols_nil.1 h
    obtain rfl : new = [] := by simpa using hnew
    exact ⟨[], [], n, rfl, .nil⟩
  | i :: s, hs, name, c, c', symbols, new, h, hnew, hknown, hwrites, depth, parent, n, hdepth => by
    rw [List.forall_mem_cons] at hs
    obtain ⟨front, c₁, back, hfront, hback, rfl⟩ := sequenceSymbols_cons.1 h
    obtain ⟨first, hfirst⟩ := symbols_grows i hfront
    obtain ⟨second, hsecond⟩ := sequenceSymbols_grows s hback
    obtain rfl := hfirst.toGrows.split hsecond.toGrows hnew
    rw [List.length_append] at hdepth
    rw [List.forall_mem_append] at hknown hwrites
    obtain ⟨w, front', n₁, rfl, hfront⟩ :=
      item_rewords i hs.1 hfront hfirst.rules hknown.1 hwrites.1 depth parent n (by omega)
    obtain ⟨w', back', n', rfl, hback⟩ :=
      sequence_rewords s hs.2 hback hsecond.rules hknown.2 hwrites.2 depth parent n₁ (by omega)
    exact ⟨w ++ w', front' ++ back', n', before_append w w', hfront.append hback⟩

/-- The symbols of every alternative of a choice are reworded. -/
theorem choice_rewords : (choice : List (List Item)) → (∀ s ∈ choice, ∀ i ∈ s, i.Legible .w3c) →
    ∀ {name : String} {c c' : Compiled} {alternatives : List (List Symbol)} {new : List Rule},
      Item.choiceSymbols .w3c name [] choice c = .ok (alternatives, c') → c'.rules = c.rules ++ new →
      (∀ r ∈ new, Known writesBack rules r) → (∀ a ∈ alternatives, ∀ s ∈ a, writesBack s = true) →
      ∀ (depth : Nat) (parent : String) (n : Nat), new.length ≤ depth →
        ∃ w alternatives' n', w.before = new ∧ RewordsAll rules depth parent n alternatives w alternatives' n'
  | [], hchoice, name, c, c', alternatives, new, h, hnew, hknown, hwrites, depth, parent, n, hdepth => by
    obtain ⟨rfl, rfl⟩ := choiceSymbols_nil.1 h
    obtain rfl : new = [] := by simpa using hnew
    exact ⟨[], [], n, rfl, .nil⟩
  | s :: choice, hchoice, name, c, c', alternatives, new, h, hnew, hknown, hwrites, depth, parent, n, hdepth => by
    rw [List.forall_mem_cons] at hchoice
    obtain ⟨front, c₁, back, hfront, hback, rfl⟩ := choiceSymbols_cons.1 h
    obtain ⟨first, hfirst⟩ := sequenceSymbols_grows s hfront
    obtain ⟨second, hsecond⟩ := choiceSymbols_grows choice hback
    obtain rfl := hfirst.toGrows.split hsecond.toGrows hnew
    rw [List.length_append] at hdepth
    rw [List.forall_mem_append] at hknown
    rw [List.forall_mem_cons] at hwrites
    obtain ⟨w, front', n₁, rfl, hfront⟩ :=
      sequence_rewords s hchoice.1 hfront hfirst.rules hknown.1 hwrites.1 depth parent n (by omega)
    obtain ⟨w', back', n', rfl, hback⟩ :=
      choice_rewords choice hchoice.2 hback hsecond.rules hknown.2 hwrites.2 depth parent n₁ (by omega)
    exact ⟨w ++ w', front' :: back', n', before_append w w', .cons hfront hback⟩

end

end Grammarian.Notation
