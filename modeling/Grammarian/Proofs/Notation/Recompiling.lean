import Grammarian.Proofs.Notation.Rereading

/-!
# Lines compiled again

The lines that rules are written as are compiled to these rules: symbol by symbol along the items that the rules
were compiled from, then line by line. Helpers take the same numbers in both runs, so they have the same names.
-/

namespace Grammarian.Notation

variable {rules new : List Rule} {skips : Bool} {scope scope' : Attributes} {parent name : String}
  {c c' : Compiled} {symbols : List Symbol} {alternatives : List (List Symbol)} {depth : Nat}

/-- The attributes that a rule is written with, for those it was read with. -/
structure Rescoped (skips : Bool) (scope scope' : Attributes) : Prop where
  whitespace : scope'.whitespace? = if skips && scope.whitespace?.isNone then some true else scope.whitespace?
  ignoreCase : scope'.flag "ignoreCase" = false

/-- A rule that is found by its name if it is a helper, and whose symbols survive. -/
abbrev Kept (rules : List Rule) (h : Rule) : Prop := Known (symbolSurvives rules h.implicitWhitespace) rules h

/-- Helpers of different names are found with the default for white space. -/
theorem finds_withDefault (hdistinct : new.Pairwise fun h k => isHelperName h.name = true → h.name ≠ k.name)
    (skips : Bool) : Finds (new.map (withDefault skips)) (new.map (withDefault skips)) := by
  refine finds_of_distinct ?_
  rw [List.pairwise_map]
  simpa using hdistinct

/-- The default settles a group's helper as the new scope does. -/
theorem withDefault_groupHelper (hscope : Rescoped skips scope scope') :
    withDefault skips (groupHelper name alternatives scope.whitespace?) =
      groupHelper name alternatives scope'.whitespace? := by
  rw [hscope.whitespace, withDefault]
  split
  next hdefault =>
    have hset : (skips && scope.whitespace?.isNone) = true := hdefault
    rw [if_pos hset]
    rfl
  next hdefault =>
    have hset : ¬ (skips && scope.whitespace?.isNone) = true := hdefault
    rw [if_neg hset]

theorem withDefault_classHelper (p : Pattern) (b : Bool) :
    withDefault skips (classHelper name p b) = classHelper name p b := by
  rw [withDefault]
  simp [classHelper]

/-- A helper of one terminal that survives is the one for a code or class with marks. -/
theorem lonely_survives {lead tail : List Char} {h : Rule} {ws : Option Bool} (hh : helperOf? rules name = some h)
    (hlonely : isLonely h = true) (hlead : IsMark (Style.leadMarks .attributed) lead) (htail : IsMark tailMarks tail)
    (hsurvive : symbolSurvives rules ws (.reference (referenceOf lead name tail)) = true) :
    ¬ (lead = [] ∧ tail = []) ∧ isClassHelper h = true ∧ h.implicitWhitespace = some (ws.getD false) := by
  have hfound : helperOf? rules (referenceOf lead name tail).name = some h := hh
  rw [symbolSurvives, hfound] at hsurvive
  simp only [Option.all_some, helperSurvives, hlonely, Bool.not_true, Bool.false_or, Bool.and_eq_true,
    Bool.not_eq_true', decide_eq_true_eq] at hsurvive
  obtain ⟨⟨hplain, hclass⟩, hws⟩ := hsurvive
  refine ⟨fun hmarks => ?_, hclass, hws⟩
  rw [(isPlain_referenceOf hlead htail name).2 hmarks] at hplain
  cases hplain

theorem exists_of_isClassHelper {h : Rule} (hclass : isClassHelper h = true) :
    ∃ p, h.alternatives = [[.pattern p]] ∧ singleChar? p.source.toList = none := by
  rw [isClassHelper] at hclass
  split at hclass
  next p heq => exact ⟨p, heq, Option.isNone_iff_eq_none.1 hclass⟩
  next => cases hclass

/-! ## Items -/

/-- The symbols of a token are read again. -/
theorem token_reread {kind : String} {lead text tail : List Char} (hscope : Rescoped skips scope scope')
    (hi : (Item.token kind lead text tail).Legible .attributed)
    (h : (Item.token kind lead text tail).symbols .attributed parent scope c = .ok (symbols, c'))
    (hnew : c'.rules = c.rules ++ new) (hdepth : new.length ≤ depth)
    (hkept : ∀ r ∈ new, Kept rules (withDefault skips r))
    (hsurvive : ∀ s ∈ symbols, symbolSurvives rules scope'.whitespace? s = true) :
    Rereads .attributed rules depth parent scope' c.helpers symbols (new.map (withDefault skips)) symbols
      c'.helpers := by
  obtain ⟨hlead, htail⟩ := hi.marks
  have hsame : c' = c → new = [] := by
    rintro rfl
    simpa using hnew
  cases yields_token hi h with
  | name htext =>
    rw [hsame rfl]
    exact rereads_reference (.name htext) (.inl rfl) hlead htail fun heq => absurd heq (by decide)
  | quoted htext hmarks =>
    rw [hsame rfl]
    exact rereads_reference (.quoted htext) (.inr rfl) hlead htail fun _ => hmarks
  | literal value =>
    rw [hsame rfl]
    exact rereads_terminal (readsBack_literal (hsurvive _ List.mem_cons_self))
  | patterns hne hall =>
    rw [hsame rfl]
    refine rereads_terminals fun s hs => ?_
    obtain ⟨p, rfl, hwritable⟩ := hall s hs
    exact readsBack_pattern hwritable (hsurvive _ hs) hscope.ignoreCase
  | @helper _ p hmarks hcoded =>
    obtain rfl : new = [classHelper (helperNameAt c.helpers parent) p (scope.whitespace?.getD false)] :=
      (List.append_cancel_left hnew).symm
    have hhelper := hkept _ List.mem_cons_self
    rw [withDefault_classHelper] at hhelper
    have hfound := hhelper.found (isHelperName_helperName c parent)
    have hskips : scope.whitespace?.getD false = scope'.whitespace?.getD false := by
      obtain ⟨-, -, hws⟩ := lonely_survives hfound rfl hlead htail (hsurvive _ List.mem_cons_self)
      exact Option.some.inj hws
    obtain ⟨depth, rfl⟩ : ∃ d, depth = d + 1 := Nat.exists_eq_add_one.2 hdepth
    have hcompile := compile_restore (hhelper.holds _ List.mem_cons_self _ List.mem_cons_self)
    rw [List.map_singleton, withDefault_classHelper, hskips]
    exact rereads_class hfound rfl hcoded hcompile hlead htail hmarks

/-- The symbols of a group are read again, where those of its alternatives are. -/
theorem group_reread {lead tail : List Char} {choice : List (List Item)} (hscope : Rescoped skips scope scope')
    (hi : (Item.group lead choice tail).Legible .attributed)
    (hchoice : ∀ {name : String} {c c' : Compiled} {alternatives : List (List Symbol)} {new : List Rule} {depth : Nat},
      Item.choiceSymbols .attributed name scope choice c = .ok (alternatives, c') → c'.rules = c.rules ++ new →
      new.length ≤ depth → (∀ r ∈ new, Kept rules (withDefault skips r)) →
      (∀ a ∈ alternatives, ∀ s ∈ a, symbolSurvives rules scope'.whitespace? s = true) →
      RereadsAll .attributed rules depth name scope' c.helpers alternatives (new.map (withDefault skips)) alternatives
        c'.helpers)
    (h : (Item.group lead choice tail).symbols .attributed parent scope c = .ok (symbols, c'))
    (hnew : c'.rules = c.rules ++ new) (hdepth : new.length ≤ depth)
    (hkept : ∀ r ∈ new, Kept rules (withDefault skips r))
    (hsurvive : ∀ s ∈ symbols, symbolSurvives rules scope'.whitespace? s = true) :
    Rereads .attributed rules depth parent scope' c.helpers symbols (new.map (withDefault skips)) symbols
      c'.helpers := by
  obtain ⟨alternatives, c₁, hcompiled, rfl, rfl⟩ := symbols_group_attributed hi h
  cases hi with
  | group hlead htail hne hnes hitems =>
    have hlegible : ∀ s ∈ choice, s ≠ [] ∧ ∀ i ∈ s, i.Legible .attributed := fun s hs => ⟨hnes s hs, hitems s hs⟩
    obtain ⟨inner, hinner⟩ := choiceSymbols_grows choice hcompiled
    obtain rfl : new = inner ++ [groupHelper (c.helperName parent) alternatives scope.whitespace?] := by
      rw [Compiled.push, hinner.rules, List.append_assoc] at hnew
      exact (List.append_cancel_left hnew).symm
    have hhelper := hkept _ List.mem_concat_self
    rw [withDefault_groupHelper hscope] at hhelper
    have hfound := hhelper.found (isHelperName_helperName c parent)
    obtain ⟨depth, rfl⟩ : ∃ d, depth = d + 1 := by
      rw [List.length_append] at hdepth
      exact Nat.exists_eq_add_one.2 (Nat.lt_of_lt_of_le (Nat.succ_pos _) hdepth)
    obtain ⟨hlength, hfull⟩ := choiceSymbols_ne_nil hlegible hcompiled
    rw [List.map_append, List.map_singleton, withDefault_groupHelper hscope]
    by_cases hlonely : isLonely (groupHelper (helperNameAt c.helpers parent) alternatives scope'.whitespace?) = true
    · obtain ⟨hmarks, hclass, hws⟩ := lonely_survives hfound hlonely hlead htail (hsurvive _ List.mem_cons_self)
      obtain ⟨p, halternatives, hsingle⟩ := exists_of_isClassHelper hclass
      obtain rfl : alternatives = [[.pattern p]] := halternatives
      obtain ⟨rfl, hwritable⟩ := choiceSymbols_terminal_attributed hlegible hcompiled rfl
      obtain rfl : inner = [] := by simpa using hinner.rules
      have hcoded : IsCoded p := by
        rcases hwritable p rfl with ⟨d, hd, -⟩ | hcoded
        · rw [hsingle] at hd
          cases hd
        · exact hcoded
      have hsame : classHelper (c.helperName parent) p (scope'.whitespace?.getD false) =
          groupHelper (c.helperName parent) [[.pattern p]] scope'.whitespace? := by
        rw [groupHelper, classHelper, ← hws]
        rfl
      have hcompile := compile_restore (hhelper.holds _ List.mem_cons_self _ List.mem_cons_self)
      rw [← hsame]
      exact rereads_class hfound rfl hcoded hcompile hlead htail hmarks
    · refine rereads_group ?_ hfull (Bool.eq_false_iff.2 hlonely) hlead htail hfound ?_
      · rintro rfl
        exact hne (List.length_eq_zero_iff.1 hlength.symm)
      · refine hchoice hcompiled hinner.rules ?_ (fun r hr => hkept r (List.mem_append_left _ hr)) hhelper.holds
        simpa using hdepth

mutual

/-- An item is read again from what is written of its symbols. -/
theorem item_reread (hscope : Rescoped skips scope scope') : (i : Item) → i.Legible .attributed →
    ∀ {parent : String} {c c' : Compiled} {symbols : List Symbol} {new : List Rule} {depth : Nat},
      i.symbols .attributed parent scope c = .ok (symbols, c') → c'.rules = c.rules ++ new → new.length ≤ depth →
      (∀ r ∈ new, Kept rules (withDefault skips r)) →
      (∀ s ∈ symbols, symbolSurvives rules scope'.whitespace? s = true) →
      Rereads .attributed rules depth parent scope' c.helpers symbols (new.map (withDefault skips)) symbols c'.helpers
  | .token kind lead text tail, hi, _, _, _, _, _, _, h, hnew, hdepth, hkept, hsurvive =>
    token_reread hscope hi h hnew hdepth hkept hsurvive
  | .group lead choice tail, hi, _, _, _, _, _, _, h, hnew, hdepth, hkept, hsurvive =>
    group_reread hscope hi (choice_reread hscope choice hi.items) h hnew hdepth hkept hsurvive

/-- The symbols of a sequence are read again. -/
theorem sequence_reread (hscope : Rescoped skips scope scope') : (s : List Item) →
    (∀ i ∈ s, i.Legible .attributed) →
    ∀ {parent : String} {c c' : Compiled} {symbols : List Symbol} {new : List Rule} {depth : Nat},
      Item.sequenceSymbols .attributed parent scope s c = .ok (symbols, c') → c'.rules = c.rules ++ new →
      new.length ≤ depth → (∀ r ∈ new, Kept rules (withDefault skips r)) →
      (∀ s ∈ symbols, symbolSurvives rules scope'.whitespace? s = true) →
      Rereads .attributed rules depth parent scope' c.helpers symbols (new.map (withDefault skips)) symbols c'.helpers
  | [], hs, parent, c, c', symbols, new, depth, h, hnew, hdepth, hkept, hsurvive => by
    obtain ⟨rfl, rfl⟩ := sequenceSymbols_nil.1 h
    obtain rfl : new = [] := by simpa using hnew
    exact .nil
  | i :: s, hs, parent, c, c', symbols, new, depth, h, hnew, hdepth, hkept, hsurvive => by
    rw [List.forall_mem_cons] at hs
    obtain ⟨front, c₁, back, hfront, hback, rfl⟩ := sequenceSymbols_cons.1 h
    obtain ⟨first, hfirst⟩ := symbols_grows i hfront
    obtain ⟨second, hsecond⟩ := sequenceSymbols_grows s hback
    obtain rfl := hfirst.toGrows.split hsecond.toGrows hnew
    rw [List.length_append] at hdepth
    rw [List.forall_mem_append] at hkept hsurvive
    rw [List.map_append]
    exact (item_reread hscope i hs.1 hfront hfirst.rules (by omega) hkept.1 hsurvive.1).append
      (sequence_reread hscope s hs.2 hback hsecond.rules (by omega) hkept.2 hsurvive.2)

/-- The symbols of a choice are read again. -/
theorem choice_reread (hscope : Rescoped skips scope scope') : (choice : List (List Item)) →
    (∀ s ∈ choice, ∀ i ∈ s, i.Legible .attributed) →
    ∀ {parent : String} {c c' : Compiled} {alternatives : List (List Symbol)} {new : List Rule} {depth : Nat},
      Item.choiceSymbols .attributed parent scope choice c = .ok (alternatives, c') → c'.rules = c.rules ++ new →
      new.length ≤ depth → (∀ r ∈ new, Kept rules (withDefault skips r)) →
      (∀ a ∈ alternatives, ∀ s ∈ a, symbolSurvives rules scope'.whitespace? s = true) →
      RereadsAll .attributed rules depth parent scope' c.helpers alternatives (new.map (withDefault skips)) alternatives
        c'.helpers
  | [], hchoice, parent, c, c', alternatives, new, depth, h, hnew, hdepth, hkept, hsurvive => by
    obtain ⟨rfl, rfl⟩ := choiceSymbols_nil.1 h
    obtain rfl : new = [] := by simpa using hnew
    exact .nil
  | s :: choice, hchoice, parent, c, c', alternatives, new, depth, h, hnew, hdepth, hkept, hsurvive => by
    rw [List.forall_mem_cons] at hchoice
    obtain ⟨front, c₁, back, hfront, hback, rfl⟩ := choiceSymbols_cons.1 h
    obtain ⟨first, hfirst⟩ := sequenceSymbols_grows s hfront
    obtain ⟨second, hsecond⟩ := choiceSymbols_grows choice hback
    obtain rfl := hfirst.toGrows.split hsecond.toGrows hnew
    rw [List.length_append] at hdepth
    rw [List.forall_mem_append] at hkept
    rw [List.forall_mem_cons] at hsurvive
    rw [List.map_append]
    exact .cons (sequence_reread hscope s hchoice.1 hfront hfirst.rules (by omega) hkept.1 hsurvive.1)
      (choice_reread hscope choice hchoice.2 hback hsecond.rules (by omega) hkept.2 hsurvive.2)

end

/-! ## Lines -/

/-- Rules from whose lines others are compiled. -/
structure RereadsLines (rules : List Rule) (n : Nat) (old new : List Rule) (n' : Nat) : Prop where
  legible : ∀ r ∈ productionsOf old, (ruleLine rules r).Legible
  reads : ∀ c : Compiled, c.helpers = n →
    compileLines .attributed c ((productionsOf old).map (ruleLine rules)) = .ok (adding c new n')

theorem productionsOf_append (front back : List Rule) :
    productionsOf (front ++ back) = productionsOf front ++ productionsOf back :=
  List.filter_append _ _

/-- Helpers are no productions. -/
theorem productionsOf_helpers (h : ∀ r ∈ new, isHelperName r.name = true) : productionsOf new = [] := by
  refine List.filter_eq_nil_iff.2 fun r hr => ?_
  rw [h r hr]
  decide

theorem productionsOf_concat {r : Rule} (h : ∀ r ∈ new, isHelperName r.name = true)
    (hname : isHelperName r.name = false) : productionsOf (new ++ [r]) = [r] := by
  rw [productionsOf_append, productionsOf_helpers h, productionsOf, List.filter_singleton, hname]
  rfl

theorem RereadsLines.nil {n : Nat} : RereadsLines rules n [] [] n where
  legible := nofun
  reads := by
    rintro c rfl
    exact compileLines_nil.2 (adding_nil c)

/-- Lines one after another are read again one after another. -/
theorem RereadsLines.append {front front' back back' : List Rule} {n n' n'' : Nat}
    (hfront : RereadsLines rules n front front' n') (hback : RereadsLines rules n' back back' n'') :
    RereadsLines rules n (front ++ back) (front' ++ back') n'' where
  legible := by
    rw [productionsOf_append]
    exact List.forall_mem_append.2 ⟨hfront.legible, hback.legible⟩
  reads := by
    intro c hc
    rw [productionsOf_append, List.map_append, ← adding_adding c front' back' n' n'']
    exact compileLines_append (hfront.reads c hc) (hback.reads _ rfl)

/-- A rule that can be written as a line. -/
structure IsLine (r : Rule) : Prop where
  name : IsName r.name.toList
  sayable : Sayable r
  choice : r.alternatives ≠ []
  full : ∀ a ∈ r.alternatives, a ≠ []

theorem IsLine.not_helper {r : Rule} (h : IsLine r) : isHelperName r.name = false := by
  rw [← String.ofList_toList (s := r.name)]
  exact h.name.not_helper

theorem IsLine.withDefault {r : Rule} (h : IsLine r) : IsLine (withDefault skips r) := by
  refine ⟨?_, h.sayable.withDefault, ?_, ?_⟩
  · rw [withDefault_name]
    exact h.name
  · rw [withDefault_alternatives]
    exact h.choice
  · rw [withDefault_alternatives]
    exact h.full

/-- What a line adds: the helpers of its alternatives, and the rule that says what the line says. -/
theorem line_grows {l : Line} (hl : l.Legible) (h : l.compile .attributed c = .ok c')
    (hnew : c'.rules = c.rules ++ new) :
    ∃ r c₁ inner, new = inner ++ [r] ∧ c'.helpers = c₁.helpers ∧ IsLine r ∧
      r.implicitWhitespace = Attributes.whitespace? (attributeStrings l.attributes) ∧
      Item.choiceSymbols .attributed r.name (attributeStrings l.attributes) l.choice c = .ok (r.alternatives, c₁) ∧
      GrowsHelpers c c₁ inner := by
  obtain ⟨own, alternatives, c₁, r, hown, hchoice, hr, rfl⟩ := compile_line.1 h
  obtain rfl : own = attributeStrings l.attributes := eq_of_readAttributes hown
  obtain ⟨rfl, hcounted⟩ := ruleWith_ok.1 hr
  obtain ⟨inner, hinner⟩ := choiceSymbols_grows l.choice hchoice
  obtain ⟨hlength, hfull⟩ := choiceSymbols_ne_nil hl.items hchoice
  rw [Compiled.push, hinner.rules, List.append_assoc] at hnew
  refine ⟨_, c₁, inner, (List.append_cancel_left hnew).symm, rfl, ?_, rfl, hchoice, hinner⟩
  refine ⟨?_, sayable_ownRule hl.attributes hcounted, ?_, hfull⟩
  · rw [ownRule, String.toList_ofList]
    exact hl.name
  · rintro (rfl : alternatives = [])
    exact hl.choice (List.length_eq_zero_iff.1 hlength.symm)

/-- Compiling lines only adds rules. -/
theorem compileLines_grows {style : Style} {lines : List Line} (hlines : ∀ l ∈ lines, IsName l.name)
    (h : compileLines style c lines = .ok c') : ∃ new, Grows c c' new := by
  induction lines generalizing c with
  | nil =>
    obtain rfl := compileLines_nil.1 h
    exact ⟨[], .refl _⟩
  | cons l lines ih =>
    rw [List.forall_mem_cons] at hlines
    obtain ⟨c₂, hl, hmore⟩ := compileLines_cons.1 h
    obtain ⟨own, alternatives, c₁, r, -, hchoice, hr, rfl⟩ := compile_line.1 hl
    obtain ⟨rfl, -⟩ := ruleWith_ok.1 hr
    obtain ⟨inner, hinner⟩ := choiceSymbols_grows l.choice hchoice
    obtain ⟨more, hgrows⟩ := ih hlines.2 hmore
    exact ⟨_, (hinner.toGrows.pushRule hlines.1.not_helper).trans hgrows⟩

/-- A rule's written attributes scope its helpers as the default did. -/
theorem rescoped_ruleAttributes {r : Rule} (h : r.implicitWhitespace = scope.whitespace?) :
    Rescoped skips scope (attributeStrings (ruleAttributes (withDefault skips r))) where
  whitespace := by
    rw [whitespace?_ruleAttributes, withDefault, h]
    split
    next hdefault => rfl
    next hdefault => exact h
  ignoreCase := ignoreCase_ruleAttributes _

section Rule

variable {r : Rule} {n n' : Nat} {helpers : List Rule} {alternatives' : List (List Symbol)}

/-- A rule that can be written as a line is written as a legible one. -/
theorem IsLine.legible (hr : IsLine r)
    (hall : RereadsAll .attributed rules rules.length r.name scope n r.alternatives new alternatives' n') :
    (ruleLine rules r).Legible where
  name := hr.name
  choice := by simpa [ruleLine] using hr.choice
  items := legible_alternatives hr.full hall.legible
  attributes := hr.sayable.legible

/-- The line of a rule is compiled to the helpers of its alternatives, and the rule with what is read of these. -/
theorem compile_ruleLine (hname : isHelperName r.name = false) (hr : Sayable { r with alternatives := alternatives' })
    (hall : RereadsAll .attributed rules rules.length r.name (attributeStrings (ruleAttributes r)) n r.alternatives new
      alternatives' n')
    (hc : c.helpers = n) : (ruleLine rules r).compile .attributed c =
      .ok (adding c (new ++ [{ r with alternatives := alternatives' }]) n') := by
  refine compile_line.2 ⟨attributeStrings (ruleAttributes r), alternatives', adding c new n',
    { r with alternatives := alternatives' }, readAttributes_ruleAttributes r, ?_, ?_, ?_⟩
  · rw [ruleLine, String.ofList_toList]
    exact hall.reads c hc
  · rw [ruleLine, String.ofList_toList]
    exact ruleWith_ruleAttributes hr hname
  · rw [Compiled.push, adding, adding, List.append_assoc]

/-- A rule is read again from its line, behind the helpers of its alternatives. -/
theorem RereadsLines.line (hhelpers : ∀ h ∈ helpers, isHelperName h.name = true) (hr : IsLine r)
    (hlength : alternatives'.length = r.alternatives.length)
    (hall : RereadsAll .attributed rules rules.length r.name (attributeStrings (ruleAttributes r)) n r.alternatives new
      alternatives' n') :
    RereadsLines rules n (helpers ++ [r]) (new ++ [{ r with alternatives := alternatives' }]) n' := by
  have hlines : productionsOf (helpers ++ [r]) = [r] := productionsOf_concat hhelpers hr.not_helper
  have hsayable : Sayable { r with alternatives := alternatives' } :=
    ⟨hr.sayable.pin, hr.sayable.target, hlength ▸ hr.sayable.single⟩
  refine ⟨?_, fun c hc => ?_⟩
  · rw [hlines]
    exact List.forall_mem_singleton.2 (hr.legible hall)
  · rw [hlines]
    exact compileLines_cons.2 ⟨_, compile_ruleLine hr.not_helper hsayable hall hc, rfl⟩

end Rule

/-- The default leaves helpers what they are. -/
theorem GrowsHelpers.withDefault {inner : List Rule} (h : GrowsHelpers c c' inner) (skips : Bool) :
    ∀ r ∈ inner.map (withDefault skips), isHelperName r.name = true :=
  List.forall_mem_map.2 fun r hr => by rw [withDefault_name, h.helper r hr]

/-- A line is read again from what is written of its rule. -/
theorem line_reread {l : Line} (hl : l.Legible) (h : l.compile .attributed c = .ok c')
    (hnew : c'.rules = c.rules ++ new) (hdepth : new.length ≤ rules.length)
    (hkept : ∀ r ∈ new, Kept rules (withDefault skips r)) :
    RereadsLines rules c.helpers (new.map (withDefault skips)) (new.map (withDefault skips)) c'.helpers := by
  obtain ⟨r, c₁, inner, rfl, hcount, hr, hws, hchoice, hinner⟩ := line_grows hl h hnew
  rw [List.forall_mem_append] at hkept
  have hreread : RereadsAll .attributed rules rules.length r.name
      (attributeStrings (ruleAttributes (withDefault skips r))) c.helpers r.alternatives
      (inner.map (withDefault skips)) r.alternatives c₁.helpers := by
    refine choice_reread (rescoped_ruleAttributes hws) l.choice (fun s hs => (hl.items s hs).2) hchoice
      hinner.rules (le_trans (by simp) hdepth) hkept.1 ?_
    rw [whitespace?_ruleAttributes, ← withDefault_alternatives skips r]
    exact (hkept.2 r List.mem_cons_self).holds
  rw [← withDefault_name skips r, ← withDefault_alternatives skips r] at hreread
  rw [List.map_append, List.map_singleton, hcount]
  exact .line (hinner.withDefault skips) hr.withDefault rfl hreread

/-- Lines are read again from what is written of their rules. -/
theorem lines_reread {lines : List Line} (hlines : ∀ l ∈ lines, l.Legible)
    (h : compileLines .attributed c lines = .ok c') (hnew : c'.rules = c.rules ++ new)
    (hdepth : new.length ≤ rules.length) (hkept : ∀ r ∈ new, Kept rules (withDefault skips r)) :
    RereadsLines rules c.helpers (new.map (withDefault skips)) (new.map (withDefault skips)) c'.helpers := by
  induction lines generalizing c new with
  | nil =>
    obtain rfl := compileLines_nil.1 h
    obtain rfl : new = [] := by simpa using hnew
    exact .nil
  | cons l lines ih =>
    rw [List.forall_mem_cons] at hlines
    obtain ⟨c₁, hl, hmore⟩ := compileLines_cons.1 h
    obtain ⟨first, hfirst⟩ := compileLines_grows (List.forall_mem_singleton.2 hlines.1.name)
      (compileLines_cons.2 ⟨c₁, hl, rfl⟩)
    obtain ⟨second, hsecond⟩ := compileLines_grows (fun l hl => (hlines.2 l hl).name) hmore
    obtain rfl := hfirst.split hsecond hnew
    rw [List.length_append] at hdepth
    rw [List.forall_mem_append] at hkept
    rw [List.map_append]
    exact (line_reread hlines.1 hl hfirst.rules (by omega) hkept.1).append
      (ih hlines.2 hmore hsecond.rules (by omega) hkept.2)

/-- **The rules of lines whose symbols survive are those of the lines they are written as.** -/
theorem compileLines_productionsOf {lines : List Line} (hlines : ∀ l ∈ lines, l.Legible)
    (h : compileLines .attributed {} lines = .ok c) (hrules : rules = c.rules.map (withDefault skips))
    (hsurvive : rulesSurvive rules = true) : RereadsLines rules 0 rules rules c.helpers := by
  obtain ⟨new, hgrows⟩ := compileLines_grows (fun l hl => (hlines l hl).name) h
  obtain rfl : c.rules = new := hgrows.rules
  have hfound : Finds rules rules := hrules ▸ finds_withDefault hgrows.distinct skips
  have hkept : ∀ r ∈ c.rules, Kept rules (withDefault skips r) := by
    intro r hr
    have hmem : withDefault skips r ∈ rules := hrules ▸ List.mem_map_of_mem hr
    refine ⟨hfound _ hmem, fun a ha s hs => ?_⟩
    rw [rulesSurvive, List.all_eq_true] at hsurvive
    have hall := List.all_eq_true.1 (hsurvive _ hmem) a ha
    exact List.all_eq_true.1 hall s hs
  have hreread := lines_reread hlines h hgrows.rules (by simp [hrules]) hkept
  rw [← hrules] at hreread
  exact hreread

end Grammarian.Notation
