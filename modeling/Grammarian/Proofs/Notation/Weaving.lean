import Grammarian.Proofs.Notation.Origins
import Grammarian.Proofs.Notation.RoundTrip

/-!
# How rules and helpers are woven

What a grammar with productions comes to is put together from few pieces: symbols that need no helper, helpers each
with the one reference to it, and rules of the productions. `Woven` says how, for both notations. From that, by
induction on how rules are put together: helpers have different names, every reference to a helper stands behind it,
and the helpers are exactly what is referred to, each once.
-/

namespace Grammarian

/-- The helper that a symbol refers to. -/
def Symbol.helper? : Symbol → Option String
  | reference r => if isHelperName r.name then some r.name else none
  | _ => none

/-- The helpers that a rule refers to, as often as it does. -/
def Rule.helperReferences (r : Rule) : List String := r.alternatives.flatten.filterMap Symbol.helper?

namespace Notation

/-- The names of the helpers among rules. -/
def helperNames (rules : List Rule) : List String := (rules.map (·.name)).filter isHelperName

/-- A symbol without a helper. -/
inductive Lone : Symbol → Prop
  | literal (value : String) : Lone (.literal value)
  | pattern (p : Pattern) : Lone (.pattern p)
  | reference {r : Reference} (hname : isHelperName r.name = false) (hread : ∃ text, .ofText text = r) :
      Lone (.reference r)

/-- Rules that are added and the symbols that stand for what is read, helpers being numbered from `n` up to
`n'`. -/
inductive Woven : Nat → List Rule → List Symbol → Nat → Prop
  | nil (n : Nat) : Woven n [] [] n
  | lone {n : Nat} {s : Symbol} (hs : Lone s) : Woven n [] [s] n
  /-- a helper, whose number is taken before those of the helpers in it, and the reference to it -/
  | helper {n n' : Nat} {new : List Rule} {h : Rule} {r : Reference} (parent : String)
      (inner : Woven (n + 1) new h.alternatives.flatten n') (hname : h.name = helperNameAt n parent)
      (hpin : h.pinAt = none) (hr : r.name = h.name) (hread : ∃ text, .ofText text = r) :
      Woven n (new ++ [h]) [.reference r] n'
  /-- the rule of a production, to which nothing refers yet -/
  | rule {n n' : Nat} {new : List Rule} {r : Rule} (inner : Woven n new r.alternatives.flatten n')
      (hname : isHelperName r.name = false) (hpin : ∀ k ∈ r.pinAt, k ≤ maxPhaseNumber) : Woven n (new ++ [r]) [] n'
  | append {n n' n'' : Nat} {new more : List Rule} {symbols others : List Symbol} (front : Woven n new symbols n')
      (back : Woven n' more others n'') : Woven n (new ++ more) (symbols ++ others) n''

/-! ## Items -/

section Items

variable {style : Style} {parent : String} {scope : Attributes} {c c' : Compiled} {kind : String}
  {lead text tail : List Char} {symbols : List Symbol} {alternatives : List (List Symbol)}

/-- Quoted text is no name of a helper. -/
theorem not_helper_of_isQuoted (h : IsQuoted text) : isHelperName (String.ofList text) = false := by
  obtain ⟨q, body, rfl, hq, -⟩ := h
  have hpercent : q ≠ '%' := by
    rintro rfl
    exact absurd hq (by decide)
  simp [isHelperName, hpercent]

/-- A reference that is read between marks can be read. -/
theorem exists_ofText_referenceOf (hlead : IsMark (Style.leadMarks .attributed) lead) (htail : IsMark tailMarks tail)
    (h : Bare text) : ∃ raw, .ofText raw = referenceOf lead (String.ofList text) tail :=
  ⟨_, ofText_marked hlead htail h⟩

/-- Symbols without helpers, one after another. -/
theorem woven_lone {n : Nat} (h : ∀ s ∈ symbols, Lone s) : Woven n [] symbols n := by
  induction symbols with
  | nil => exact .nil n
  | cons s symbols ih =>
    rw [List.forall_mem_cons] at h
    exact (Woven.lone h.1).append (ih h.2)

/-- The reference to a helper, marked as the item is. -/
theorem exists_marked_helper (c : Compiled) (parent : String) (hlead : IsMark (Style.leadMarks .attributed) lead)
    (htail : IsMark tailMarks tail) :
    ∃ r : Reference, marked (leadMark lead) (c.helperName parent) (String.ofList tail) = .reference r ∧
      r.name = c.helperName parent ∧ ∃ raw, .ofText raw = r := by
  have hread := exists_ofText_referenceOf hlead htail (bare_helperName c parent)
  rw [String.ofList_toList] at hread
  exact ⟨_, marked_helperName hlead htail c parent, rfl, hread⟩

/-- A code or class is a pattern, or with marks the reference to a helper for it. -/
theorem class_woven (hkind : kind = "CharCode" ∨ kind = "CharClass")
    (hlead : IsMark (Style.leadMarks .attributed) lead) (htail : IsMark tailMarks tail)
    (h : (Item.token kind lead text tail).symbols style parent scope c = .ok (symbols, c')) :
    ∃ new, c'.rules = c.rules ++ new ∧ Woven c.helpers new symbols c'.helpers := by
  rw [symbols_class_eq hkind] at h
  cases hclass : classSymbol parent scope (leadMark lead) (String.ofList text) (String.ofList tail) c with
  | error e =>
    rw [hclass] at h
    cases h
  | ok found =>
    rw [hclass] at h
    cases h
    obtain ⟨p, -, ⟨hsymbol, hrest⟩ | ⟨hsymbol, hrest⟩⟩ := classSymbol_ok hclass
    · rw [hsymbol, hrest]
      exact ⟨[], (List.append_nil _).symm, .lone (.pattern p)⟩
    · obtain ⟨r, hmarked, hr, hread⟩ := exists_marked_helper c parent hlead htail
      rw [hsymbol, hrest, hmarked]
      exact ⟨[] ++ [_], rfl, .helper parent (.lone (.pattern p)) rfl rfl hr hread⟩

/-- The symbols of a literal refer to no helper. -/
theorem literal_lone (hlead : IsMark (Style.leadMarks .attributed) lead) (htail : IsMark tailMarks tail)
    (hquoted : IsQuoted text)
    (h : literalSymbols style scope (leadMark lead) (String.ofList text) (String.ofList tail) = .ok symbols) :
    ∀ s ∈ symbols, Lone s := by
  have hwhole : Lone (.ofText (String.ofList text)) := by
    rw [ofText_quoted hquoted]
    exact .literal _
  rw [literalSymbols] at h
  split at h
  next =>
    cases hsplit : splitLiteral (String.ofList text) (scope.flag "ignoreCase") with
    | error e =>
      rw [hsplit] at h
      cases h
    | ok more =>
      rw [hsplit] at h
      cases h
      rcases splitLiteral_ok hsplit with rfl | ⟨-, hpatterns⟩
      · exact List.forall_mem_singleton.2 hwhole
      · intro s hs
        obtain ⟨p, rfl, -⟩ := hpatterns s hs
        exact .pattern p
  next =>
    cases h
    refine List.forall_mem_singleton.2 ?_
    by_cases hmarks : lead = [] ∧ tail = []
    · obtain ⟨rfl, rfl⟩ := hmarks
      have hplain : marked (leadMark []) (String.ofList text) (String.ofList []) = .ofText (String.ofList text) := by
        simp [marked, leadMark]
      rw [hplain]
      exact hwhole
    · rw [marked_quoted hlead htail hquoted hmarks]
      exact .reference (not_helper_of_isQuoted hquoted) (exists_ofText_referenceOf hlead htail hquoted.bare)

/-- The symbols of a token are woven with its helper. -/
theorem token_woven (hi : (Item.token kind lead text tail).Legible style)
    (h : (Item.token kind lead text tail).symbols style parent scope c = .ok (symbols, c')) :
    ∃ new, c'.rules = c.rules ++ new ∧ Woven c.helpers new symbols c'.helpers := by
  cases hi with
  | token htext hlead htail =>
    have hlead := hlead.attributed
    cases htext with
    | name hname =>
      cases h
      rw [marked_name hlead htail hname.bare (isLiteral_of_isName hname lead tail)]
      exact ⟨[], (List.append_nil _).symm,
        .lone (.reference hname.not_helper (exists_ofText_referenceOf hlead htail hname.bare))⟩
    | quoted hquoted =>
      cases hliteral : literalSymbols style scope (leadMark lead) (String.ofList text) (String.ofList tail) with
      | error e =>
        simp only [Item.symbols, tokenSymbols, hliteral] at h
        cases h
      | ok more =>
        simp only [Item.symbols, tokenSymbols, hliteral] at h
        cases h
        exact ⟨[], (List.append_nil _).symm, woven_lone (literal_lone hlead htail hquoted hliteral)⟩
    | code hcode => exact class_woven (.inl rfl) hlead htail h
    | charClass hclassText => exact class_woven (.inr rfl) hlead htail h

mutual

/-- What an item comes to is woven. -/
theorem symbols_woven : (i : Item) → i.Legible style → ∀ {parent : String} {c c' : Compiled} {symbols : List Symbol},
    i.symbols style parent scope c = .ok (symbols, c') →
      ∃ new, c'.rules = c.rules ++ new ∧ Woven c.helpers new symbols c'.helpers
  | .token kind lead text tail, hi, parent, c, c', symbols, h => token_woven hi h
  | .group lead choice tail, hi, parent, c, c', symbols, h => by
    obtain ⟨alternatives, c₁, hchoice, rfl, rfl⟩ := symbols_group.1 h
    cases hi with
    | group hlead htail hne hnes hall =>
      obtain ⟨new, hnew, hwoven⟩ := choiceSymbols_woven choice hall hchoice
      obtain ⟨r, hmarked, hr, hread⟩ := exists_marked_helper c parent hlead.attributed htail
      rw [hmarked]
      refine ⟨new ++ [groupHelper (c.helperName parent) alternatives scope.whitespace?], ?_,
        .helper parent hwoven rfl rfl hr hread⟩
      rw [Compiled.push, hnew, List.append_assoc]
      rfl

/-- The symbols of a sequence are woven with their helpers. -/
theorem sequenceSymbols_woven : (s : List Item) → (∀ i ∈ s, i.Legible style) →
    ∀ {parent : String} {c c' : Compiled} {symbols : List Symbol},
      Item.sequenceSymbols style parent scope s c = .ok (symbols, c') →
        ∃ new, c'.rules = c.rules ++ new ∧ Woven c.helpers new symbols c'.helpers
  | [], hs, parent, c, c', symbols, h => by
    obtain ⟨rfl, rfl⟩ := sequenceSymbols_nil.1 h
    exact ⟨[], (List.append_nil _).symm, .nil _⟩
  | i :: s, hs, parent, c, c', symbols, h => by
    rw [List.forall_mem_cons] at hs
    obtain ⟨front, c₁, back, hfront, hback, rfl⟩ := sequenceSymbols_cons.1 h
    obtain ⟨new, hnew, hwoven⟩ := symbols_woven i hs.1 hfront
    obtain ⟨more, hmore, hwoven'⟩ := sequenceSymbols_woven s hs.2 hback
    exact ⟨new ++ more, by rw [hmore, hnew, List.append_assoc], hwoven.append hwoven'⟩

/-- The symbols of a choice are woven with their helpers. -/
theorem choiceSymbols_woven : (choice : List (List Item)) → (∀ s ∈ choice, ∀ i ∈ s, i.Legible style) →
    ∀ {parent : String} {c c' : Compiled} {alternatives : List (List Symbol)},
      Item.choiceSymbols style parent scope choice c = .ok (alternatives, c') →
        ∃ new, c'.rules = c.rules ++ new ∧ Woven c.helpers new alternatives.flatten c'.helpers
  | [], hchoice, parent, c, c', alternatives, h => by
    obtain ⟨rfl, rfl⟩ := choiceSymbols_nil.1 h
    exact ⟨[], (List.append_nil _).symm, .nil _⟩
  | s :: choice, hchoice, parent, c, c', alternatives, h => by
    rw [List.forall_mem_cons] at hchoice
    obtain ⟨front, c₁, back, hfront, hback, rfl⟩ := choiceSymbols_cons.1 h
    obtain ⟨new, hnew, hwoven⟩ := sequenceSymbols_woven s hchoice.1 hfront
    obtain ⟨more, hmore, hwoven'⟩ := choiceSymbols_woven choice hchoice.2 hback
    exact ⟨new ++ more, by rw [hmore, hnew, List.append_assoc], hwoven.append hwoven'⟩

end

/-- A choice compiles to as many alternatives as it has. -/
theorem length_choiceSymbols {choice : List (List Item)}
    (h : Item.choiceSymbols style parent scope choice c = .ok (alternatives, c')) :
    alternatives.length = choice.length := by
  induction choice generalizing c alternatives with
  | nil =>
    obtain ⟨rfl, -⟩ := choiceSymbols_nil.1 h
    rfl
  | cons s choice ih =>
    obtain ⟨front, c₁, back, -, hback, rfl⟩ := choiceSymbols_cons.1 h
    rw [List.length_cons, List.length_cons, ih hback]

end Items

/-! ## Lines -/

section Lines

variable {style : Style} {c c' : Compiled} {l : Line} {lines : List Line}

/-- A rule with the name and the alternatives of a line. -/
structure StandsAs (style : Style) (l : Line) (r : Rule) : Prop where
  name : r.name = String.ofList l.name
  alternatives : ∃ own c c', Item.choiceSymbols style r.name own l.choice c = .ok (r.alternatives, c')

/-- A phase number is not larger than the largest. -/
theorem phaseNumber?_le {text : String} {k : Nat} (h : phaseNumber? text = some k) : k ≤ maxPhaseNumber := by
  rw [phaseNumber?_eq] at h
  split at h
  next => cases h
  next =>
    split at h
    next hle =>
      cases h
      exact hle
    next => cases h

/-- What a line comes to is woven, and one rule of it is no helper. -/
theorem line_woven (hname : IsName l.name) (hitems : ∀ s ∈ l.choice, ∀ i ∈ s, i.Legible style)
    (h : l.compile style c = .ok c') : ∃ new, c'.rules = c.rules ++ new ∧ Woven c.helpers new [] c'.helpers ∧
      ∃ r, productionsOf new = [r] ∧ StandsAs style l r := by
  obtain ⟨alternatives, c₁, -, hchoice, -, rfl⟩ := Line.compile_iff.1 h
  obtain ⟨new, hnew, hwoven⟩ := choiceSymbols_woven l.choice hitems hchoice
  obtain ⟨helpers, hhelpers⟩ := choiceSymbols_grows l.choice hchoice
  obtain rfl : new = helpers := List.append_cancel_left (hnew.symm.trans hhelpers.rules)
  refine ⟨new ++ [l.rule alternatives], ?_, .rule hwoven hname.not_helper ?_, _,
    productionsOf_concat hhelpers.helper hname.not_helper, rfl, _, c, _, hchoice⟩
  · rw [Compiled.push, hnew, List.append_assoc]
  · intro k hk
    obtain ⟨value, -, hvalue⟩ := Option.bind_eq_some_iff.1 hk
    exact phaseNumber?_le hvalue

/-- What lines come to is woven, and the rules that are no helpers are theirs, in order. -/
theorem lines_woven (hlines : ∀ l ∈ lines, IsName l.name ∧ ∀ s ∈ l.choice, ∀ i ∈ s, i.Legible style)
    (h : compileLines style c lines = .ok c') : ∃ new, c'.rules = c.rules ++ new ∧
      Woven c.helpers new [] c'.helpers ∧ List.Forall₂ (StandsAs style) lines (productionsOf new) := by
  induction lines generalizing c with
  | nil =>
    obtain rfl := compileLines_nil.1 h
    exact ⟨[], (List.append_nil _).symm, .nil _, .nil⟩
  | cons l lines ih =>
    rw [List.forall_mem_cons] at hlines
    obtain ⟨c₁, hl, hmore⟩ := compileLines_cons.1 h
    obtain ⟨new, hnew, hwoven, r, hr, hstands⟩ := line_woven hlines.1.1 hlines.1.2 hl
    obtain ⟨more, hmore, hwoven', hrest⟩ := ih hlines.2 hmore
    refine ⟨new ++ more, by rw [hmore, hnew, List.append_assoc], hwoven.append hwoven', ?_⟩
    rw [productionsOf_append, hr]
    exact .cons hstands hrest

end Lines

/-! ## What is woven -/

theorem helperNames_append (rules more : List Rule) :
    helperNames (rules ++ more) = helperNames rules ++ helperNames more := by
  rw [helperNames, List.map_append, List.filter_append]
  rfl

theorem helperNames_concat {r : Rule} (rules : List Rule) (hname : isHelperName r.name = true) :
    helperNames (rules ++ [r]) = helperNames rules ++ [r.name] := by
  rw [helperNames_append]
  simp [helperNames, hname]

theorem helperNames_concat_rule {r : Rule} (rules : List Rule) (hname : isHelperName r.name = false) :
    helperNames (rules ++ [r]) = helperNames rules := by
  rw [helperNames_append]
  simp [helperNames, hname]

/-- The names of helpers are those of rules that are named like one. -/
theorem mem_helperNames {rules : List Rule} {name : String} :
    name ∈ helperNames rules ↔ isHelperName name = true ∧ ∃ r ∈ rules, r.name = name := by
  rw [helperNames, List.mem_filter, List.mem_map, and_comm]

/-- A lone symbol refers to no helper. -/
theorem Lone.helper?_eq_none {s : Symbol} (h : Lone s) : s.helper? = none := by
  cases h with
  | literal value => rfl
  | pattern p => rfl
  | reference hname hread => rw [Symbol.helper?, hname, if_neg Bool.false_ne_true]

/-- Two lists of two parts, part by part. -/
theorem perm_append_append {α : Type} {front front' back back' first second : List α}
    (hfirst : (front ++ back).Perm first) (hsecond : (front' ++ back').Perm second) :
    (front ++ front' ++ (back ++ back')).Perm (first ++ second) := by
  refine List.Perm.trans ?_ (hfirst.append hsecond)
  rw [List.append_assoc, List.append_assoc]
  refine List.Perm.append_left front ?_
  rw [← List.append_assoc, ← List.append_assoc]
  exact List.perm_append_comm.append_right back'

/-- Where an element of two lists one after another stands. -/
theorem split_append {α : Type} {front back before after : List α} {a : α} (h : front ++ back = before ++ a :: after) :
    (∃ rest, front = before ++ a :: rest ∧ after = rest ++ back) ∨
      ∃ rest, before = front ++ rest ∧ back = rest ++ a :: after := by
  rcases List.append_eq_append_iff.1 h with ⟨rest, hbefore, hback⟩ | ⟨rest, hfront, hafter⟩
  · exact .inr ⟨rest, hbefore, hback⟩
  · cases rest with
    | nil => exact .inr ⟨[], by rw [hfront, List.append_nil, List.append_nil], hafter.symm⟩
    | cons b rest =>
      obtain ⟨rfl, hrest⟩ := List.cons.inj hafter
      exact .inl ⟨rest, hfront, hrest⟩

theorem eq_of_singleton_eq_append {α : Type} {before after : List α} {a b : α} (h : [b] = before ++ a :: after) :
    before = [] ∧ a = b ∧ after = [] := by
  cases before with
  | nil =>
    obtain ⟨rfl, rfl⟩ := List.cons.inj h
    exact ⟨rfl, rfl, rfl⟩
  | cons c before =>
    have hlength := congrArg List.length h
    simp at hlength

/-- Each rule refers to helpers before it only. -/
def RefersBack (rules : List Rule) : Prop :=
  ∀ before r after, rules = before ++ r :: after → ∀ name ∈ r.helperReferences, name ∈ helperNames before

namespace RefersBack

variable {rules more : List Rule} {r : Rule}

theorem nil : RefersBack [] := by
  intro before r after hsplit
  exact absurd hsplit.symm (List.append_ne_nil_of_right_ne_nil before (List.cons_ne_nil r after))

theorem append (h : RefersBack rules) (h' : RefersBack more) : RefersBack (rules ++ more) := by
  intro before r after hsplit name hname
  rcases split_append hsplit with ⟨rest, hfront, -⟩ | ⟨rest, rfl, hback⟩
  · exact h _ _ _ hfront name hname
  · rw [helperNames_append]
    exact List.mem_append_right _ (h' _ _ _ hback name hname)

theorem concat (h : RefersBack rules) (hr : ∀ name ∈ r.helperReferences, name ∈ helperNames rules) :
    RefersBack (rules ++ [r]) := by
  intro before k after hsplit name hname
  rcases split_append hsplit with ⟨rest, hfront, -⟩ | ⟨rest, rfl, hback⟩
  · exact h _ _ _ hfront name hname
  · obtain ⟨rfl, rfl, -⟩ := eq_of_singleton_eq_append hback
    rw [List.append_nil]
    exact hr name hname

/-- A rule that refers to a helper has it among the rules before. Where helpers have different names, neither a
helper nor a rule before it refers to that. -/
theorem not_referred {k : Rule} {before after : List Rule} (h : RefersBack rules) (hnodup : (helperNames rules).Nodup)
    (hsplit : rules = before ++ k :: after) (hk : isHelperName k.name = true) :
    k.name ∉ (before ++ [k]).flatMap Rule.helperReferences := by
  intro hreferred
  obtain ⟨r, hr, hname⟩ := List.mem_flatMap.1 hreferred
  obtain ⟨front, back, hplace⟩ := List.append_of_mem hr
  have hlast : k ∈ r :: back := by
    rcases split_append hplace with ⟨rest, -, rfl⟩ | ⟨rest, -, hrest⟩
    · simp
    · rw [(eq_of_singleton_eq_append hrest).2.1]
      exact List.mem_cons_self
  have hwhole : rules = front ++ r :: (back ++ after) := by
    rw [hsplit, List.append_cons, hplace, List.append_assoc, List.cons_append]
  have hearlier := h _ _ _ hwhole _ hname
  rw [hwhole, helperNames_append] at hnodup
  apply List.disjoint_of_nodup_append hnodup hearlier
  rw [← List.cons_append]
  exact mem_helperNames.2 ⟨hk, k, List.mem_append_left after hlast, rfl⟩

end RefersBack

namespace Woven

variable {n n' : Nat} {new : List Rule} {symbols : List Symbol}

/-- Changes that leave names, alternatives and phases of rules as they are. -/
theorem map (h : Woven n new symbols n') {f : Rule → Rule} (hname : ∀ r, (f r).name = r.name)
    (halternatives : ∀ r, (f r).alternatives = r.alternatives) (hpin : ∀ r, (f r).pinAt = r.pinAt) :
    Woven n (new.map f) symbols n' := by
  induction h with
  | nil n => exact .nil n
  | lone hs => exact .lone hs
  | @helper n n' new h r parent inner hname' hpin' hr hread ih =>
    rw [List.map_append, List.map_singleton]
    rw [← halternatives] at ih
    exact .helper parent ih ((hname h).trans hname') ((hpin h).trans hpin') (hr.trans (hname h).symm) hread
  | @rule n n' new r inner hname' hpin' ih =>
    rw [List.map_append, List.map_singleton]
    rw [← halternatives] at ih
    exact .rule ih (by rw [hname, hname']) (by rw [hpin]; exact hpin')
  | append front back ihFront ihBack =>
    rw [List.map_append]
    exact ihFront.append ihBack

/-- What is woven grows by helpers only. -/
theorem grows (h : Woven n new symbols n') (rules : List Rule) : Grows ⟨rules, n⟩ ⟨rules ++ new, n'⟩ new := by
  induction h generalizing rules with
  | nil n =>
    rw [List.append_nil]
    exact .refl _
  | lone hs =>
    rw [List.append_nil]
    exact .refl _
  | helper parent inner hname hpin hr hread ih =>
    have hgrows := Grows.pushHelper (c := ⟨rules, _⟩) (ih rules) hname
    rwa [Compiled.push, List.append_assoc] at hgrows
  | rule inner hname hpin ih =>
    have hgrows := Grows.pushRule (ih rules) hname
    rwa [Compiled.push, List.append_assoc] at hgrows
  | append front back ihFront ihBack =>
    have hgrows := (ihFront rules).trans (ihBack _)
    rwa [List.append_assoc] at hgrows

/-- What is added refers to the helpers that are added, to each once, there or in the symbols. -/
theorem balanced (h : Woven n new symbols n') :
    (new.flatMap Rule.helperReferences ++ symbols.filterMap Symbol.helper?).Perm (helperNames new) := by
  induction h with
  | nil n => exact .nil
  | lone hs =>
    rw [List.filterMap_cons_none hs.helper?_eq_none]
    exact .nil
  | @helper n n' new h r parent inner hname hpin hr hread ih =>
    have hhelper : isHelperName h.name = true := hname ▸ isHelperName_helperName ⟨[], n⟩ parent
    have hreference : (Symbol.reference r).helper? = some h.name := by
      rw [Symbol.helper?, hr, if_pos hhelper]
    rw [List.flatMap_append, List.flatMap_singleton, helperNames_concat new hhelper,
      List.filterMap_cons_some hreference]
    exact ih.append_right [h.name]
  | rule inner hname hpin ih =>
    rw [List.flatMap_append, List.flatMap_singleton, helperNames_concat_rule _ hname, List.filterMap_nil,
      List.append_nil]
    exact ih
  | append front back ihFront ihBack =>
    rw [List.flatMap_append, List.filterMap_append, helperNames_append]
    exact perm_append_append ihFront ihBack

/-- A rule that is put together from what is woven refers to helpers there. -/
theorem mem_of_parts {r : Rule} (inner : Woven n new r.alternatives.flatten n') :
    ∀ name ∈ r.helperReferences, name ∈ helperNames new := by
  intro name hname
  exact inner.balanced.subset (List.mem_append_right _ hname)

/-- What is woven refers to helpers that stand before. -/
theorem refersBack (h : Woven n new symbols n') : RefersBack new := by
  induction h with
  | nil n => exact .nil
  | lone hs => exact .nil
  | helper parent inner hname hpin hr hread ih => exact ih.concat inner.mem_of_parts
  | rule inner hname hpin ih => exact ih.concat inner.mem_of_parts
  | append front back ihFront ihBack => exact ihFront.append ihBack

/-- Helpers have different names. -/
theorem nodup (h : Woven n new symbols n') : (helperNames new).Nodup := by
  rw [helperNames, List.Nodup, List.pairwise_filter, List.pairwise_map]
  exact (h.grows []).distinct.imp fun hne hname _ => hne hname

section Complete

variable (h : Woven n new [] n')

include h

/-- Rules of productions refer to each helper once. -/
theorem referred_perm : (new.flatMap Rule.helperReferences).Perm (helperNames new) := by
  have hperm := h.balanced
  rwa [List.filterMap_nil, List.append_nil] at hperm

/-- All helpers that rules refer to are among them. -/
theorem closed {r : Rule} (hr : r ∈ new) {name : String} (hname : name ∈ r.helperReferences) :
    name ∈ helperNames new :=
  h.referred_perm.subset (List.mem_flatMap.2 ⟨r, hr, hname⟩)

/-- A helper is referred to once, behind it. -/
theorem referred_once {before after : List Rule} {k : Rule} (hsplit : new = before ++ k :: after)
    (hk : isHelperName k.name = true) : ((before ++ [k]).flatMap Rule.helperReferences).count k.name = 0 ∧
      (after.flatMap Rule.helperReferences).count k.name = 1 := by
  have hmem : k.name ∈ helperNames new := mem_helperNames.2 ⟨hk, k, by simp [hsplit], rfl⟩
  have hone : (new.flatMap Rule.helperReferences).count k.name = 1 := by
    rw [h.referred_perm.count_eq]
    exact List.count_eq_one_of_mem h.nodup hmem
  have hnone := List.count_eq_zero_of_not_mem (h.refersBack.not_referred h.nodup hsplit hk)
  rw [hsplit, List.append_cons, List.flatMap_append, List.count_append, hnone] at hone
  constructor
  · exact hnone
  · omega

end Complete

end Woven

end Notation

end Grammarian
