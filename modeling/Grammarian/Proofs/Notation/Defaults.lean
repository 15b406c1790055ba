import Grammarian.Proofs.Notation.Lossless
import Grammarian.Proofs.Notation.Origins
import Grammarian.Proofs.Parse.Likeness

/-!
# White space by default

`ws=implicit` for the whole grammar is a default for rules that do not say otherwise. Written on each line instead,
it is in scope where helpers are made. The two come to the same rules with one exception: the helper for a code or
class with marks says that it skips no white space where nothing is in scope, and then no default applies to it.
-/

namespace Grammarian

namespace Notation

/-! ## Codes and classes with marks -/

namespace Item

mutual

/-- Whether a code or class with marks stands in an item, at any depth. -/
def marksClass : Item → Bool
  | token kind lead _ tail => (kind = "CharCode" || kind = "CharClass") && !(lead.isEmpty && tail.isEmpty)
  | group _ choice _ => choiceMarksClass choice

def sequenceMarksClass : List Item → Bool
  | [] => false
  | i :: is => marksClass i || sequenceMarksClass is

def choiceMarksClass : List (List Item) → Bool
  | [] => false
  | s :: ss => sequenceMarksClass s || choiceMarksClass ss

end

end Item

/-- Helpers that are made with these attributes in scope: only those for codes and classes say whether they skip white
space where nothing in scope does, and there are such helpers just when codes or classes have marks. -/
structure HelpersIn (scope : Attributes) (marked : Bool) (new : List Rule) : Prop where
  flags : ∀ r ∈ new, r.implicitWhitespace = scope.whitespace? ∨
    ∃ name p, r = classHelper name p (scope.whitespace?.getD false)
  marked : scope.whitespace? = none → (marked = true ↔ ∃ r ∈ new, r.implicitWhitespace = some false)

namespace HelpersIn

variable {scope : Attributes} {marked marked' : Bool} {new new' : List Rule}

theorem nil (scope : Attributes) : HelpersIn scope false [] := ⟨nofun, by simp⟩

theorem append (h : HelpersIn scope marked new) (h' : HelpersIn scope marked' new') :
    HelpersIn scope (marked || marked') (new ++ new') where
  flags := List.forall_mem_append.2 ⟨h.flags, h'.flags⟩
  marked hnone := by
    rw [Bool.or_eq_true, h.marked hnone, h'.marked hnone]
    simp only [List.mem_append, or_and_right, exists_or]

/-- One more rule that takes its flag from the scope. -/
theorem concat (h : HelpersIn scope marked new) {r : Rule} (hr : r.implicitWhitespace = scope.whitespace?) :
    HelpersIn scope marked (new ++ [r]) where
  flags := List.forall_mem_append.2 ⟨h.flags, List.forall_mem_singleton.2 (.inl hr)⟩
  marked hnone := by
    rw [h.marked hnone]
    simp [or_and_right, exists_or, hr, hnone]

theorem charClass (scope : Attributes) (name : String) (p : Pattern) :
    HelpersIn scope true [classHelper name p (scope.whitespace?.getD false)] where
  flags := List.forall_mem_singleton.2 (.inr ⟨name, p, rfl⟩)
  marked hnone := by simp [classHelper, hnone]

end HelpersIn

/-! ## Other attributes in scope -/

/-- With these attributes in scope items are read alike, but that every helper is `f` of the one before. -/
structure ReadAlike (scope scope' : Attributes) (f : Rule → Rule) : Prop where
  ignoreCase : scope'.flag "ignoreCase" = scope.flag "ignoreCase"
  group : ∀ name alternatives,
    f (groupHelper name alternatives scope.whitespace?) = groupHelper name alternatives scope'.whitespace?
  charClass : ∀ name p, f (classHelper name p (scope.whitespace?.getD false)) =
    classHelper name p (scope'.whitespace?.getD false)

theorem ReadAlike.refl (scope : Attributes) : ReadAlike scope scope id := ⟨rfl, fun _ _ => rfl, fun _ _ => rfl⟩

section Items

variable {style : Style} {scope scope' : Attributes} {f : Rule → Rule} {parent : String} {c c₁ : Compiled}
  {symbols : List Symbol} {alternatives : List (List Symbol)}

theorem helperName_congr {c c' : Compiled} (h : c'.helpers = c.helpers) (parent : String) :
    c'.helperName parent = c.helperName parent := by
  rw [Compiled.helperName, Compiled.helperName, h]

/-- Of the scope, literals see the flag for letter case only. -/
theorem literalSymbols_congr (h : scope'.flag "ignoreCase" = scope.flag "ignoreCase") (lead text tail : String) :
    literalSymbols style scope' lead text tail = literalSymbols style scope lead text tail := by
  rw [literalSymbols, literalSymbols, h]

/-- A class or code compiles alike, its helper settled by the scope. -/
theorem class_alike (h : ReadAlike scope scope' f) {kind : String} (hkind : kind = "CharCode" ∨ kind = "CharClass")
    {lead text tail : List Char} (hlead : IsMark (Style.leadMarks .attributed) lead) (htail : IsMark tailMarks tail)
    (hsymbols : (Item.token kind lead text tail).symbols style parent scope c = .ok (symbols, c₁)) :
    ∃ new n, HelpersIn scope (Item.token kind lead text tail).marksClass new ∧ c₁ = adding c new n ∧
      ∀ c' : Compiled, c'.helpers = c.helpers →
        (Item.token kind lead text tail).symbols style parent scope' c' = .ok (symbols, adding c' (new.map f) n) := by
  have hmarks : (Item.token kind lead text tail).marksClass = !(lead.isEmpty && tail.isEmpty) := by
    rcases hkind with rfl | rfl
    · simp [Item.marksClass]
    · simp [Item.marksClass]
  obtain ⟨p, hp⟩ : ∃ p, Pattern.compile (String.ofList (CharCode.expand text)) = .ok p := by
    rw [symbols_class_eq hkind] at hsymbols
    cases hclass : classSymbol parent scope (leadMark lead) (String.ofList text) (String.ofList tail) c with
    | error e =>
      rw [hclass] at hsymbols
      cases hsymbols
    | ok r =>
      obtain ⟨p, hp, -⟩ := classSymbol_ok hclass
      exact ⟨p, by rwa [String.toList_ofList] at hp⟩
  rw [symbols_class hkind hlead htail hp] at hsymbols
  split at hsymbols
  next hnone =>
    cases hsymbols
    refine ⟨[], c.helpers, ?_, (adding_nil c).symm, fun c' hc' => ?_⟩
    · rw [hmarks, hnone.1, hnone.2]
      exact .nil scope
    · rw [symbols_class hkind hlead htail hp, if_pos hnone, List.map_nil, ← hc', adding_nil]
  next hsome =>
    cases hsymbols
    refine ⟨_, c.helpers + 1, ?_, rfl, fun c' hc' => ?_⟩
    · have htrue : (Item.token kind lead text tail).marksClass = true := by
        rw [hmarks, Bool.not_eq_true', Bool.and_eq_false_iff]
        by_contra hboth
        simp only [not_or, Bool.not_eq_false, List.isEmpty_iff] at hboth
        exact hsome hboth
      rw [htrue]
      exact .charClass scope _ p
    · rw [symbols_class hkind hlead htail hp, if_neg hsome, helperName_congr hc', List.map_singleton, h.charClass]
      rw [Compiled.countHelper, hc']
      rfl

/-- What is read of a token depends on the rules so far only by the number of helpers. -/
theorem token_alike (h : ReadAlike scope scope' f) {kind : String} {lead text tail : List Char}
    (hi : (Item.token kind lead text tail).Legible .attributed)
    (hsymbols : (Item.token kind lead text tail).symbols style parent scope c = .ok (symbols, c₁)) :
    ∃ new n, HelpersIn scope (Item.token kind lead text tail).marksClass new ∧ c₁ = adding c new n ∧
      ∀ c' : Compiled, c'.helpers = c.helpers →
        (Item.token kind lead text tail).symbols style parent scope' c' = .ok (symbols, adding c' (new.map f) n) := by
  cases hi with
  | token htext hlead htail =>
    cases htext with
    | name hname =>
      cases hsymbols
      refine ⟨[], c.helpers, ?_, (adding_nil c).symm, fun c' hc' => ?_⟩
      · simpa [Item.marksClass] using HelpersIn.nil scope
      · rw [List.map_nil, ← hc', adding_nil]
        rfl
    | quoted hquoted =>
      simp only [Item.symbols, tokenSymbols, literalSymbols_congr h.ignoreCase] at hsymbols ⊢
      cases hliteral : literalSymbols style scope (leadMark lead) (String.ofList text) (String.ofList tail) with
      | error e =>
        rw [hliteral] at hsymbols
        cases hsymbols
      | ok more =>
        rw [hliteral] at hsymbols
        cases hsymbols
        refine ⟨[], c.helpers, ?_, (adding_nil c).symm, fun c' hc' => ?_⟩
        · simpa [Item.marksClass] using HelpersIn.nil scope
        · rw [List.map_nil, ← hc', adding_nil]
          rfl
    | code hcode => exact class_alike h (.inl rfl) hlead htail hsymbols
    | charClass hclass => exact class_alike h (.inr rfl) hlead htail hsymbols

mutual

/-- What is read depends on the rules so far only by the number of helpers. -/
theorem symbols_alike (h : ReadAlike scope scope' f) : (i : Item) → i.Legible .attributed →
    ∀ {parent : String} {c c₁ : Compiled} {symbols : List Symbol}, i.symbols style parent scope c = .ok (symbols, c₁) →
      ∃ new n, HelpersIn scope i.marksClass new ∧ c₁ = adding c new n ∧ ∀ c' : Compiled, c'.helpers = c.helpers →
        i.symbols style parent scope' c' = .ok (symbols, adding c' (new.map f) n)
  | .token kind lead text tail, hi, parent, c, c₁, symbols, hsymbols => token_alike h hi hsymbols
  | .group lead choice tail, hi, parent, c, c₁, symbols, hsymbols => by
    have hall : ∀ s ∈ choice, ∀ i ∈ s, i.Legible .attributed := by
      cases hi with
      | group hlead htail hne hnes hall => exact hall
    obtain ⟨alternatives, c₂, hchoice, rfl, rfl⟩ := symbols_group.1 hsymbols
    obtain ⟨new, n, hnew, rfl, halike⟩ := choiceSymbols_alike h choice hall hchoice
    let helper := groupHelper (c.helperName parent) alternatives scope.whitespace?
    have hpush : ∀ (c : Compiled) (new : List Rule) (r : Rule), (adding c.countHelper new n).push r =
        adding c (new ++ [r]) n := fun c new r => by rw [adding, adding, Compiled.push, List.append_assoc]; rfl
    have hmarks : (Item.group lead choice tail).marksClass = Item.choiceMarksClass choice := by rw [Item.marksClass]
    refine ⟨new ++ [helper], n, hmarks ▸ hnew.concat rfl, hpush c new helper, fun c' hc' => ?_⟩
    have hhelper : f helper = groupHelper (c'.helperName parent) alternatives scope'.whitespace? := by
      rw [helperName_congr hc', h.group]
    have hcount : c'.countHelper.helpers = c.countHelper.helpers := by
      rw [Compiled.countHelper, Compiled.countHelper, hc']
    have hinner := halike c'.countHelper hcount
    rw [← helperName_congr hc' parent] at hinner
    refine symbols_group.2 ⟨alternatives, _, hinner, by rw [helperName_congr hc'], ?_⟩
    rw [hpush, List.map_append, List.map_singleton, hhelper]

/-- A sequence compiles alike, its helpers settled by the scope. -/
theorem sequenceSymbols_alike (h : ReadAlike scope scope' f) : (s : List Item) → (∀ i ∈ s, i.Legible .attributed) →
    ∀ {parent : String} {c c₁ : Compiled} {symbols : List Symbol},
      Item.sequenceSymbols style parent scope s c = .ok (symbols, c₁) →
      ∃ new n, HelpersIn scope (Item.sequenceMarksClass s) new ∧ c₁ = adding c new n ∧
        ∀ c' : Compiled, c'.helpers = c.helpers →
          Item.sequenceSymbols style parent scope' s c' = .ok (symbols, adding c' (new.map f) n)
  | [], _, parent, c, c₁, symbols, hsymbols => by
    obtain ⟨rfl, rfl⟩ := sequenceSymbols_nil.1 hsymbols
    refine ⟨[], c₁.helpers, .nil scope, (adding_nil c₁).symm, fun c' hc' => ?_⟩
    rw [List.map_nil, ← hc', adding_nil]
    rfl
  | i :: s, hs, parent, c, c₁, symbols, hsymbols => by
    rw [List.forall_mem_cons] at hs
    obtain ⟨front, c₂, back, hfront, hback, rfl⟩ := sequenceSymbols_cons.1 hsymbols
    obtain ⟨new, n, hnew, rfl, hfrontAlike⟩ := symbols_alike h i hs.1 hfront
    obtain ⟨more, m, hmore, rfl, hbackAlike⟩ := sequenceSymbols_alike h s hs.2 hback
    refine ⟨new ++ more, m, hnew.append hmore, adding_adding .., fun c' hc' => ?_⟩
    refine sequenceSymbols_cons.2 ⟨front, _, back, hfrontAlike c' hc', ?_, rfl⟩
    rw [List.map_append, ← adding_adding c' _ _ n m]
    exact hbackAlike (adding c' (new.map f) n) rfl

/-- A choice compiles alike, its helpers settled by the scope. -/
theorem choiceSymbols_alike (h : ReadAlike scope scope' f) : (choice : List (List Item)) →
    (∀ s ∈ choice, ∀ i ∈ s, i.Legible .attributed) →
    ∀ {parent : String} {c c₁ : Compiled} {alternatives : List (List Symbol)},
      Item.choiceSymbols style parent scope choice c = .ok (alternatives, c₁) →
      ∃ new n, HelpersIn scope (Item.choiceMarksClass choice) new ∧ c₁ = adding c new n ∧
        ∀ c' : Compiled, c'.helpers = c.helpers →
          Item.choiceSymbols style parent scope' choice c' = .ok (alternatives, adding c' (new.map f) n)
  | [], _, parent, c, c₁, alternatives, halternatives => by
    obtain ⟨rfl, rfl⟩ := choiceSymbols_nil.1 halternatives
    refine ⟨[], c₁.helpers, .nil scope, (adding_nil c₁).symm, fun c' hc' => ?_⟩
    rw [List.map_nil, ← hc', adding_nil]
    rfl
  | s :: choice, hchoice, parent, c, c₁, alternatives, halternatives => by
    rw [List.forall_mem_cons] at hchoice
    obtain ⟨front, c₂, back, hfront, hback, rfl⟩ := choiceSymbols_cons.1 halternatives
    obtain ⟨new, n, hnew, rfl, hfrontAlike⟩ := sequenceSymbols_alike h s hchoice.1 hfront
    obtain ⟨more, m, hmore, rfl, hbackAlike⟩ := choiceSymbols_alike h choice hchoice.2 hback
    refine ⟨new ++ more, m, hnew.append hmore, adding_adding .., fun c' hc' => ?_⟩
    refine choiceSymbols_cons.2 ⟨front, _, back, hfrontAlike c' hc', ?_, rfl⟩
    rw [List.map_append, ← adding_adding c' _ _ n m]
    exact hbackAlike (adding c' (new.map f) n) rfl

end

end Items

/-! ## Lines -/

section Lines

variable {style : Style} {l l' : Line} {lines lines' : List Line} {c c₁ : Compiled} {attrs own : Attributes}
  {as front back : List (List Char × List Char)}

/-- The line with `ws=implicit` among its attributes, unless it has a `ws` attribute of its own. -/
inductive Localized : Line → Line → Prop
  | kept {l : Line} (h : l.scope.get? "ws" ≠ none) : Localized l l
  | told {name : List Char} {choice : List (List Item)} {front back : List (List Char × List Char)}
    (h : Attributes.get? (attributeStrings (front ++ back)) "ws" = none) :
    Localized ⟨name, choice, front ++ back⟩ ⟨name, choice, front ++ implicitWs :: back⟩

/-- Localizing the default keeps a line legible. -/
theorem Localized.legible (h : Localized l l') (hl : l.Legible) : l'.Legible := by
  cases h with
  | kept hws => exact hl
  | told hws =>
    refine ⟨hl.name, hl.choice, hl.items, fun a ha => ?_⟩
    rcases List.mem_append.1 ha with ha | ha
    · exact hl.attributes a (List.mem_append_left _ ha)
    · rcases List.mem_cons.1 ha with rfl | ha
      · exact legible_implicitWs
      · exact hl.attributes a (List.mem_append_right _ ha)

/-- Another attribute has no part in what is looked up. -/
theorem get?_insert {name : String} (hname : name ≠ "ws") (front back : List (List Char × List Char)) :
    Attributes.get? (attributeStrings (front ++ implicitWs :: back)) name =
      Attributes.get? (attributeStrings (front ++ back)) name := by
  have hother : Attributes.get? (attributeStrings (implicitWs :: back)) name =
      Attributes.get? (attributeStrings back) name := by
    have hskip : ¬ "ws" = name := fun heq => hname heq.symm
    rw [Attributes.get?, Attributes.get?, attributeStrings, List.map_cons, List.find?_cons_of_neg]
    · rfl
    · simpa [implicitWs] using hskip
  rw [attributeStrings_append, attributeStrings_append, get?_append, get?_append, hother]

/-- The inserted attribute is found where the line has none. -/
theorem get?_inserted (h : Attributes.get? (attributeStrings front) "ws" = none) :
    Attributes.get? (attributeStrings (front ++ implicitWs :: back)) "ws" = some "implicit" := by
  rw [attributeStrings_append, get?_append, h, Option.none_or]
  rfl

/-- The rule with white space between its phases. -/
def spaced (r : Rule) : Rule := { r with implicitWhitespace := some true }

/-- Rules that are the same, or the helpers of a code or class that does not skip white space and of one that does. -/
def SameButClass (r r' : Rule) : Prop :=
  r' = r ∨ ∃ name p, r = classHelper name p false ∧ r' = classHelper name p true

/-- The rules that a line and the localized one add, the default being that white space is skipped: the same, but for
the helpers of codes and classes where there are any and the line does not tell. -/
structure SameRules (marked : Prop) (new new' : List Rule) : Prop where
  each : List.Forall₂ SameButClass (new.map (withDefault true)) new'
  same_iff : new' = new.map (withDefault true) ↔ ¬ marked

theorem SameRules.nil : SameRules False [] [] := ⟨.nil, by simp⟩

/-- The same rules are put behind the same rules. -/
theorem SameRules.append {marked marked' : Prop} {new new' more more' : List Rule} (h : SameRules marked new new')
    (h' : SameRules marked' more more') : SameRules (marked ∨ marked') (new ++ more) (new' ++ more') where
  each := by
    rw [List.map_append]
    exact List.rel_append h.each h'.each
  same_iff := by
    rw [List.map_append, not_or, ← h.same_iff, ← h'.same_iff]
    exact ⟨fun heq => List.append_inj heq h.each.length_eq.symm, fun ⟨heq, heq'⟩ => by rw [heq, heq']⟩

/-- A rule with a setting of its own does not take the default. -/
theorem withDefault_of_some {skips : Bool} {r : Rule} {b : Bool} (h : r.implicitWhitespace = some b) :
    withDefault skips r = r := by
  rw [withDefault, h]
  simp

/-- A rule without a setting takes the default. -/
theorem withDefault_of_none {r : Rule} (h : r.implicitWhitespace = none) : withDefault true r = spaced r := by
  rw [withDefault, h]
  rfl

/-- A line that tells whether to skip white space makes rules that no default applies to. -/
theorem Line.compile_kept (hlegible : l.Legible) (hws : l.scope.get? "ws" ≠ none)
    (h : l.compile .attributed c = .ok c₁) : ∃ new n, c₁ = adding c new n ∧ SameRules False new new ∧
      ∀ c' : Compiled, c'.helpers = c.helpers → l.compile .attributed c' = .ok (adding c' new n) := by
  obtain ⟨b, hb⟩ : ∃ b, l.scope.whitespace? = some b := by
    obtain ⟨value, hvalue⟩ := Option.ne_none_iff_exists'.1 hws
    exact ⟨_, by rw [Attributes.whitespace?, hvalue, Option.map_some]⟩
  obtain ⟨alternatives, c₂, hread, hchoice, hcounted, rfl⟩ := Line.compile_iff.1 h
  obtain ⟨new, n, hnew, rfl, halike⟩ := choiceSymbols_alike (.refl l.scope) l.choice
    (fun s hs => (hlegible.items s hs).2) hchoice
  have hpush : ∀ c : Compiled, (adding c new n).push (l.rule alternatives) =
      adding c (new ++ [l.rule alternatives]) n := fun c => by rw [adding, adding, Compiled.push, List.append_assoc]
  have hsame : (new ++ [l.rule alternatives]).map (withDefault true) = new ++ [l.rule alternatives] := by
    refine (List.map_congr_left fun r hr => ?_).trans (List.map_id _)
    rcases List.mem_append.1 hr with hr | hr
    · rcases hnew.flags r hr with hflag | ⟨name, p, rfl⟩
      · exact withDefault_of_some (hflag.trans hb)
      · exact withDefault_of_some rfl
    · rw [List.mem_singleton.1 hr]
      exact withDefault_of_some hb
  refine ⟨_, n, hpush c, ⟨?_, by simp [hsame]⟩, fun c' hc' => ?_⟩
  · rw [hsame]
    exact List.forall₂_same.2 fun r _ => .inl rfl
  · have hinner := halike c' hc'
    rw [List.map_id] at hinner
    exact Line.compile_iff.2 ⟨alternatives, _, hread, hinner, hcounted, (hpush c').symm⟩

/-- A rule that is not told of white space becomes the same by default as where it is told, but for the helper of a
code or class. -/
theorem sameRules_spaced {scope : Attributes} {marked : Bool} {new : List Rule} (hnone : scope.whitespace? = none)
    (h : HelpersIn scope marked new) : SameRules (marked = true) new (new.map spaced) where
  each := by
    refine List.forall₂_map_left_iff.2 (List.forall₂_map_right_iff.2 (List.forall₂_same.2 fun r hr => ?_))
    rcases h.flags r hr with hflag | ⟨name, p, rfl⟩
    · exact .inl (withDefault_of_none (hflag.trans hnone)).symm
    · rw [withDefault_of_some rfl, hnone]
      exact .inr ⟨name, p, rfl, rfl⟩
  same_iff := by
    rw [h.marked hnone, List.map_inj_left]
    push Not
    refine forall₂_congr fun r hr => ?_
    rcases h.flags r hr with hflag | ⟨name, p, rfl⟩
    · simp [withDefault_of_none (hflag.trans hnone), hflag, hnone]
    · rw [withDefault_of_some rfl, hnone]
      simp [spaced, classHelper]

/-- A line that does not tell makes the same rules by default as where it is told, but for helpers of codes and
classes. -/
theorem Line.compile_told {name : List Char} {choice : List (List Item)}
    (hlegible : Line.Legible ⟨name, choice, front ++ back⟩)
    (hws : Attributes.get? (attributeStrings (front ++ back)) "ws" = none)
    (h : Line.compile .attributed ⟨name, choice, front ++ back⟩ c = .ok c₁) :
    ∃ new new' n, c₁ = adding c new n ∧ SameRules (Item.choiceMarksClass choice = true) new new' ∧
      ∀ c' : Compiled, c'.helpers = c.helpers →
        Line.compile .attributed ⟨name, choice, front ++ implicitWs :: back⟩ c' = .ok (adding c' new' n) := by
  obtain ⟨alternatives, c₂, hread, hchoice, hcounted, rfl⟩ := Line.compile_iff.1 h
  let l : Line := ⟨name, choice, front ++ back⟩
  let l' : Line := ⟨name, choice, front ++ implicitWs :: back⟩
  have hother : ∀ {key : String}, key ≠ "ws" → l'.scope.get? key = l.scope.get? key := fun hkey =>
    get?_insert hkey front back
  have hnone : l.scope.whitespace? = none := by rw [Attributes.whitespace?, Line.scope, hws, Option.map_none]
  have hsome : l'.scope.whitespace? = some true := by
    have hfront : Attributes.get? (attributeStrings front) "ws" = none := by
      rw [attributeStrings_append, get?_append, Option.or_eq_none_iff] at hws
      exact hws.1
    rw [Attributes.whitespace?, Line.scope, get?_inserted hfront]
    rfl
  have halike : ReadAlike l.scope l'.scope spaced :=
    { ignoreCase := by rw [Attributes.flag, Attributes.flag, hother (by decide)]
      group := fun name alternatives => by rw [hsome]; rfl
      charClass := fun name p => by rw [hsome]; rfl }
  obtain ⟨new, n, hnew, rfl, hinner⟩ := choiceSymbols_alike halike choice
    (fun s hs => (hlegible.items s hs).2) hchoice
  have hrule : l'.rule alternatives = spaced (l.rule alternatives) := by
    simp only [Line.rule, ownRule, Attributes.flag, hother (show "recoverUntil" ≠ "ws" by decide),
      hother (show "fragment" ≠ "ws" by decide), hother (show "pin" ≠ "ws" by decide),
      hother (show "simplifyWhenOneChildren" ≠ "ws" by decide), hsome]
    rfl
  have hread' : readAttributes [] l'.attributes = .ok l'.scope := by
    have hnodup : ((front ++ back).map (·.1)).Nodup := (readAttributes_nil_iff.1 hread).2
    have hnew : implicitWs.1 ∉ (front ++ back).map (·.1) := get?_eq_none_iff.1 hws
    refine readAttributes_nil_iff.2 ⟨rfl, ?_⟩
    rw [List.map_append] at hnodup hnew
    rw [List.map_append, List.map_cons]
    exact List.nodup_middle.2 (List.nodup_cons.2 ⟨hnew, hnodup⟩)
  have hcounted' : Counted l'.scope (l'.rule alternatives) := by
    rw [hrule]
    exact ⟨by rw [hother (by decide)]; exact hcounted.pin, hcounted.single⟩
  have hall : HelpersIn l.scope (Item.choiceMarksClass choice) (new ++ [l.rule alternatives]) := hnew.concat rfl
  refine ⟨_, _, n, by rw [adding, adding, Compiled.push, List.append_assoc], sameRules_spaced hnone hall,
    fun c' hc' => Line.compile_iff.2 ⟨alternatives, _, hread', hinner c' hc', hcounted', ?_⟩⟩
  rw [hrule, List.map_append, adding, adding, Compiled.push, List.append_assoc]
  rfl

/-- A grammar with the default makes the same rules as one whose lines are told, but for helpers of codes and
classes. -/
theorem compileLines_localized (hlegible : ∀ l ∈ lines, l.Legible) (hlines : List.Forall₂ Localized lines lines')
    (h : compileLines .attributed c lines = .ok c₁) :
    ∃ new new' n, c₁ = adding c new n ∧
      SameRules (∃ l ∈ lines, l.scope.get? "ws" = none ∧ Item.choiceMarksClass l.choice = true) new new' ∧
      ∀ c' : Compiled, c'.helpers = c.helpers → compileLines .attributed c' lines' = .ok (adding c' new' n) := by
  induction hlines generalizing c with
  | nil =>
    obtain rfl := compileLines_nil.1 h
    refine ⟨[], [], c₁.helpers, (adding_nil c₁).symm, by simpa using SameRules.nil, fun c' hc' => ?_⟩
    rw [← hc', adding_nil]
    rfl
  | @cons l l' lines lines' hl _ ih =>
    rw [List.forall_mem_cons] at hlegible
    obtain ⟨c₂, hfirst, hmore⟩ := compileLines_cons.1 h
    -- What the first line adds, in either form.
    obtain ⟨new, new', n, rfl, hsame, hfirst'⟩ : ∃ new new' n, c₂ = adding c new n ∧
        SameRules (l.scope.get? "ws" = none ∧ Item.choiceMarksClass l.choice = true) new new' ∧
        ∀ c' : Compiled, c'.helpers = c.helpers → l'.compile .attributed c' = .ok (adding c' new' n) := by
      cases hl with
      | kept hws =>
        obtain ⟨new, n, hnew, hsame, hcompile⟩ := Line.compile_kept hlegible.1 hws hfirst
        exact ⟨new, new, n, hnew, by simpa [hws] using hsame, hcompile⟩
      | told hws =>
        obtain ⟨new, new', n, hnew, hsame, hcompile⟩ := Line.compile_told hlegible.1 hws hfirst
        exact ⟨new, new', n, hnew, by simpa [Line.scope, hws] using hsame, hcompile⟩
    obtain ⟨more, more', m, rfl, hsame', hmore'⟩ := ih hlegible.2 hmore
    refine ⟨new ++ more, new' ++ more', m, adding_adding .., ?_, fun c' hc' => ?_⟩
    · rw [List.exists_mem_cons_iff]
      exact hsame.append hsame'
    · rw [← adding_adding c' _ _ n m]
      exact compileLines_cons.2 ⟨_, hfirst' c' hc', hmore' _ rfl⟩

end Lines

end Notation

namespace Dialect

open Notation

/-- **The default for white space.** Take `ws=implicit` away from the whole grammar and write it on each line that has
no `ws` attribute: the rules that are read of such a source are those of the grammar with the default, but that the
helper of a code or class with marks skips white space only now. So the rules are the same just when no such code or
class stands in a line that does not tell. -/
theorem default_localized {source : String} {front back : List (List Char × List Char)} {lines lines' : List Line}
    {rules : List Rule} (hread : ReadsAs source (front ++ implicitWs :: back) lines)
    (hrules : custom.rulesOf source = .ok rules) (hlines : List.Forall₂ Localized lines lines') :
    (∃ source', ReadsAs source' (front ++ back) lines') ∧
      ∀ source', ReadsAs source' (front ++ back) lines' → ∃ rules', custom.rulesOf source' = .ok rules' ∧
        List.Forall₂ SameButClass rules rules' ∧
        (rules' = rules ↔ ¬ ∃ l ∈ lines, l.scope.get? "ws" = none ∧ Item.choiceMarksClass l.choice = true) := by
  obtain ⟨attrs, c, hattrs, hc, rfl⟩ := hread.rulesOf_iff.1 hrules
  obtain ⟨rfl, hnodup⟩ := readAttributes_nil_iff.1 hattrs
  rw [List.map_append, List.map_cons, List.nodup_middle, List.nodup_cons, ← List.map_append] at hnodup
  obtain ⟨hnew, hnodup⟩ := hnodup
  have hws : Attributes.get? (attributeStrings (front ++ back)) "ws" = none := get?_eq_none_iff.2 hnew
  have hfront : Attributes.get? (attributeStrings front) "ws" = none := by
    rw [attributeStrings_append, get?_append, Option.or_eq_none_iff] at hws
    exact hws.1
  have hdefault : decide (Attributes.get? (attributeStrings (front ++ implicitWs :: back)) "ws" = some "implicit") =
      true := decide_eq_true (get?_inserted hfront)
  have hplain : decide (Attributes.get? (attributeStrings (front ++ back)) "ws" = some "implicit") = false := by
    rw [hws]
    rfl
  obtain ⟨new, new', n, rfl, hsame, hcompile⟩ := compileLines_localized hread.legible hlines hc
  refine ⟨⟨_, readsAs_sheetText ?_ ?_⟩, fun source' hread' => ?_⟩
  · intro a ha
    refine hread.attributes a (List.mem_append.2 ?_)
    exact (List.mem_append.1 ha).imp_right (List.mem_cons_of_mem implicitWs)
  · intro l' hl'
    obtain ⟨l, hl, hlocal⟩ := exists_mem_of_forall₂ hlines hl'
    exact hlocal.legible (hread.legible l hl)
  · refine ⟨new', ?_, ?_, ?_⟩
    · refine hread'.rulesOf_iff.2 ⟨_, _, readAttributes_nil_iff.2 ⟨rfl, hnodup⟩, hcompile {} rfl, ?_⟩
      rw [hplain]
      exact (List.map_id' _).symm
    · rw [hdefault]
      exact hsame.each
    · rw [hdefault]
      exact hsame.same_iff

/-- A line with a group that does not tell of white space, and one that does. -/
def bracketLines : List Line :=
  [⟨"Bracket".toList, [[.token "StringLiteral" [] "'<'".toList [],
      .group [] [[.token "NCName" [] "Word".toList []]] ['*'], .token "StringLiteral" [] "'>'".toList []]], []⟩,
    ⟨"Word".toList, [[.token "CharClass" [] "[a-z]".toList ['+']]], [("ws".toList, "explicit".toList)]⟩]

/-- The lines without the default. -/
def bracketLines' : List Line :=
  bracketLines.map fun l => if l.attributes = [] then { l with attributes := [implicitWs] } else l

theorem bracketLines_legible : ∀ l ∈ bracketLines, l.Legible := by decide +kernel

/-- The one class with marks stands in the line that tells, so the rules are the same. -/
theorem bracketLines_localized : ∃ source source' rules, ReadsAs source [implicitWs] bracketLines ∧
    ReadsAs source' [] bracketLines' ∧ custom.rulesOf source = .ok rules ∧ custom.rulesOf source' = .ok rules := by
  have hread : ReadsAs (String.ofList (sheetText [implicitWs] bracketLines)) ([] ++ implicitWs :: []) bracketLines :=
    readsAs_sheetText (by simpa using legible_implicitWs) bracketLines_legible
  have hmade : ((Notation.rulesOf .attributed (grammarNode [implicitWs] bracketLines)).toOption.any fun _ => true) =
      true := by decide +kernel
  obtain ⟨rules, hrules, -⟩ := exists_ok_of_any hmade
  replace hrules := hread.rulesOf_eq.trans hrules
  have hlines : List.Forall₂ Localized bracketLines bracketLines' :=
    .cons (@Localized.told _ _ [] [] rfl) (.cons (.kept (by decide)) .nil)
  obtain ⟨⟨source', hread'⟩, hall⟩ := default_localized hread hrules hlines
  obtain ⟨rules', hrules', -, hsame⟩ := hall source' hread'
  have hnone : ¬ ∃ l ∈ bracketLines, l.scope.get? "ws" = none ∧ Item.choiceMarksClass l.choice = true := by
    decide +kernel
  exact ⟨_, source', rules, hread, hread', hrules, hsame.2 hnone ▸ hrules'⟩

/-- A line with a class that repeats. -/
def repeatedLine : Line := ⟨['A'], [[.token "CharClass" [] "[a]".toList ['+']]], []⟩

/-- The rules of the line, with the flag of the helper for the class. -/
def repeatedRules (skips : Bool) : List Rule :=
  [{ name := "%A_0", alternatives := [[.ofPattern "[a]"]], fragment := true, implicitWhitespace := some skips },
    { name := "A", alternatives := [[.reference (.ofText "%A_0+")]], implicitWhitespace := some true }]

/-- With the default for the whole grammar the helper of a class with marks skips no white space, but it does with the
attribute on the line. -/
theorem repeated_class_differs :
    ReadsAs " \x7b ws=implicit \x7d\nA ::= [a]+\n" [implicitWs] [repeatedLine] ∧
    ReadsAs "A ::= [a]+ \x7b ws=implicit \x7d\n" [] [{ repeatedLine with attributes := [implicitWs] }] ∧
    custom.rulesOf " \x7b ws=implicit \x7d\nA ::= [a]+\n" = .ok (repeatedRules false) ∧
    custom.rulesOf "A ::= [a]+ \x7b ws=implicit \x7d\n" = .ok (repeatedRules true) ∧
    repeatedRules false ≠ repeatedRules true := by
  have hread : ReadsAs " \x7b ws=implicit \x7d\nA ::= [a]+\n" [implicitWs] [repeatedLine] :=
    @readsAs_sheetText [implicitWs] [repeatedLine] (by decide +kernel) (by decide +kernel)
  have hread' : ReadsAs "A ::= [a]+ \x7b ws=implicit \x7d\n" [] [{ repeatedLine with attributes := [implicitWs] }] :=
    @readsAs_sheetText [] [{ repeatedLine with attributes := [implicitWs] }] nofun (by decide +kernel)
  refine ⟨hread, hread', ?_, ?_, by decide +kernel⟩
  · rw [hread.rulesOf_eq]
    decide +kernel
  · rw [hread'.rulesOf_eq]
    decide +kernel

end Dialect

end Grammarian
