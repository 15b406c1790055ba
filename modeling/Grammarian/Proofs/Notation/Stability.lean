import Grammarian.Proofs.Notation.Recompiling
import Grammarian.Proofs.Notation.Retelling

/-!
# Rules of the attributed notation written again

The text of rules whose literals and patterns survive being written is read as rules that are written as this text.
These need not be the same rules: no text tells a helper for one terminal, or whether the helper of a code or class
skips white space.
-/

namespace Grammarian.Notation

/-- A literal or pattern that is written so that it is read as it is. -/
def terminalSurvives : Symbol → Bool
  | .literal value => literalSurvives value.toList
  | .pattern p => patternSurvives p
  | .reference _ => true

/-- Rules whose literals and patterns are written so that they are read as they are. -/
def terminalsSurvive (rules : List Rule) : Bool :=
  rules.all fun r => r.alternatives.all (·.all terminalSurvives)

variable {rules new : List Rule} {skips : Bool} {scope scope' : Attributes} {name parent : String}
  {c c' : Compiled} {symbols : List Symbol} {t : Symbol} {h : Rule} {depth n n' n'' : Nat}
  {kind : String} {lead text tail : List Char} {choice : List (List Item)} {l : Line} {lines : List Line}

/-- A terminal that survives reads back. -/
theorem readsBack_attributed (ht : t.isTerminal = true) (hwritable : ∀ p, t = .pattern p → Writable p)
    (hsurvives : terminalSurvives t = true) (hcase : scope.flag "ignoreCase" = false) :
    ReadsBack .attributed scope t := by
  cases t with
  | literal value => exact readsBack_literal hsurvives
  | pattern p => exact readsBack_pattern (hwritable p rfl) hsurvives hcase
  | reference r => cases ht

/-! ## Items -/

/-- What a token stands for is written again. -/
theorem token_retells (hcase : scope'.flag "ignoreCase" = false)
    (hi : (Item.token kind lead text tail).Legible .attributed)
    (h : (Item.token kind lead text tail).symbols .attributed name scope c = .ok (symbols, c'))
    (hnew : c'.rules = c.rules ++ new) (hknown : ∀ r ∈ new, Known terminalSurvives rules (withDefault skips r))
    (hsurvive : ∀ s ∈ symbols, terminalSurvives s = true) (depth : Nat) (parent : String) (n : Nat)
    (hdepth : new.length ≤ depth) :
    ∃ new' symbols' n', Retells .attributed rules depth parent scope' n symbols new' symbols' n' := by
  obtain ⟨hlead, htail⟩ := hi.marks
  cases yields_token hi h with
  | name htext =>
    exact ⟨_, _, _, retells_reference (.name htext) (.inl rfl) hlead htail fun heq => absurd heq (by decide)⟩
  | quoted htext hmarks =>
    exact ⟨_, _, _, retells_reference (.quoted htext) (.inr rfl) hlead htail fun _ => hmarks⟩
  | literal value => exact ⟨_, _, _, retells_terminal (readsBack_literal (hsurvive _ List.mem_cons_self))⟩
  | patterns hne hall =>
    refine ⟨_, _, _, retells_terminals fun s hs => ?_⟩
    obtain ⟨p, rfl, hwritable⟩ := hall s hs
    exact readsBack_pattern hwritable (hsurvive _ hs) hcase
  | @helper _ p hmarks hcoded =>
    obtain rfl : new = [classHelper (c.helperName name) p (scope.whitespace?.getD false)] :=
      (List.append_cancel_left hnew).symm
    have hhelper := hknown _ List.mem_cons_self
    rw [withDefault_classHelper] at hhelper
    have hfound := hhelper.found (isHelperName_helperName c name)
    obtain ⟨depth, rfl⟩ : ∃ d, depth = d + 1 := Nat.exists_eq_add_one.2 hdepth
    have hcompile := compile_restore (hhelper.holds _ List.mem_cons_self _ List.mem_cons_self)
    exact ⟨_, _, _, retells_class hfound rfl hcoded hcompile hlead htail hmarks⟩

/-- A group around one terminal is written without its parentheses. -/
theorem lonely_retells (hh : helperOf? rules h.name = some h) (hterminal : h.alternatives = [[t]])
    (ht : t.isTerminal = true) (hwritable : ∀ p, t = .pattern p → Writable p) (hsurvives : terminalSurvives t = true)
    (hcase : scope.flag "ignoreCase" = false) (hlead : IsMark (Style.leadMarks .attributed) lead)
    (htail : IsMark tailMarks tail) :
    ∃ new' symbols' n', Retells .attributed rules (depth + 1) parent scope n
      [.reference (referenceOf lead h.name tail)] new' symbols' n' := by
  by_cases hmarks : lead = [] ∧ tail = []
  · obtain ⟨rfl, rfl⟩ := hmarks
    exact ⟨_, _, _, retells_inlined hh hterminal (readsBack_attributed ht hwritable hsurvives hcase)⟩
  · cases t with
    | literal value =>
      have hitem : helperItem (written .attributed rules depth) lead h tail =
          .token "StringLiteral" lead (Literal.quoted value.toList) tail := by
        rw [helperItem, hterminal]
      exact ⟨_, _, _, retells_quoted hh hitem (isQuoted_of_survives hsurvives) hlead htail hmarks⟩
    | pattern p =>
      rcases hwritable p rfl with ⟨d, hsingle, -⟩ | hcoded
      · obtain ⟨hitem, hquoted⟩ := patternItem_of_single lead tail hsingle
        exact ⟨_, _, _, retells_quoted hh ((helperItem_pattern hterminal _).trans hitem) hquoted hlead htail hmarks⟩
      · exact ⟨_, _, _, retells_class hh hterminal hcoded (compile_restore hsurvives) hlead htail hmarks⟩
    | reference r => cases ht

/-- A group is written again, where its alternatives are. -/
theorem group_retells (hcase : scope'.flag "ignoreCase" = false)
    (hi : (Item.group lead choice tail).Legible .attributed)
    (hchoice : ∀ {name : String} {c c' : Compiled} {alternatives : List (List Symbol)} {new : List Rule},
      Item.choiceSymbols .attributed name scope choice c = .ok (alternatives, c') → c'.rules = c.rules ++ new →
      (∀ r ∈ new, Known terminalSurvives rules (withDefault skips r)) →
      (∀ a ∈ alternatives, ∀ s ∈ a, terminalSurvives s = true) → ∀ (depth : Nat) (parent : String) (n : Nat),
      new.length ≤ depth →
        ∃ new' alternatives' n', RetellsAll .attributed rules depth parent scope' n alternatives new' alternatives' n')
    (hgroup : (Item.group lead choice tail).symbols .attributed name scope c = .ok (symbols, c'))
    (hnew : c'.rules = c.rules ++ new) (hknown : ∀ r ∈ new, Known terminalSurvives rules (withDefault skips r))
    (depth : Nat) (parent : String) (n : Nat) (hdepth : new.length ≤ depth) :
    ∃ new' symbols' n', Retells .attributed rules depth parent scope' n symbols new' symbols' n' := by
  obtain ⟨alternatives, c₁, hcompiled, rfl, rfl⟩ := symbols_group_attributed hi hgroup
  cases hi with
  | group hlead htail hne hnes hitems =>
    have hlegible : ∀ s ∈ choice, s ≠ [] ∧ ∀ i ∈ s, i.Legible .attributed := fun s hs => ⟨hnes s hs, hitems s hs⟩
    obtain ⟨inner, hinner⟩ := choiceSymbols_grows choice hcompiled
    obtain rfl : new = inner ++ [groupHelper (c.helperName name) alternatives scope.whitespace?] := by
      rw [Compiled.push, hinner.rules, List.append_assoc] at hnew
      exact (List.append_cancel_left hnew).symm
    obtain ⟨depth, rfl⟩ : ∃ d, depth = d + 1 := by
      rw [List.length_append] at hdepth
      exact Nat.exists_eq_add_one.2 (Nat.lt_of_lt_of_le (Nat.succ_pos _) hdepth)
    obtain ⟨hlength, hfull⟩ := choiceSymbols_ne_nil hlegible hcompiled
    have hhelper := hknown _ List.mem_concat_self
    generalize hh : withDefault skips (groupHelper (c.helperName name) alternatives scope.whitespace?) = h at hhelper
    have hname : h.name = c.helperName name := by
      rw [← hh, withDefault_name]
      rfl
    obtain rfl : h.alternatives = alternatives := by
      rw [← hh, withDefault_alternatives]
      rfl
    have hfound := hhelper.found (hname ▸ isHelperName_helperName c name)
    rw [← hname]
    by_cases hlonely : isLonely h = true
    · obtain ⟨t, ht, hterminal⟩ := exists_of_isLonely hlonely
      rw [hterminal] at hcompiled
      obtain ⟨-, hwritable⟩ := choiceSymbols_terminal_attributed hlegible hcompiled ht
      have hsurvives : terminalSurvives t = true :=
        hhelper.holds [t] (hterminal ▸ List.mem_cons_self) t List.mem_cons_self
      exact lonely_retells hfound hterminal ht hwritable hsurvives hcase hlead htail
    · have hne' : h.alternatives ≠ [] := by
        intro hnil
        rw [hnil] at hlength
        exact hne (List.length_eq_zero_iff.1 hlength.symm)
      obtain ⟨new', alternatives', n', hall⟩ := hchoice hcompiled hinner.rules
        (fun r hr => hknown r (List.mem_append_left _ hr)) hhelper.holds depth (helperNameAt n parent) (n + 1)
        (by simpa using hdepth)
      exact ⟨_, _, _, retells_group hne' hfull (Bool.eq_false_iff.2 hlonely) hlead htail hfound hall⟩

mutual

/-- What an item stands for is written again. -/
theorem item_retells (hcase : scope'.flag "ignoreCase" = false) : (i : Item) → i.Legible .attributed →
    ∀ {name : String} {c c' : Compiled} {symbols : List Symbol} {new : List Rule},
      i.symbols .attributed name scope c = .ok (symbols, c') → c'.rules = c.rules ++ new →
      (∀ r ∈ new, Known terminalSurvives rules (withDefault skips r)) →
      (∀ s ∈ symbols, terminalSurvives s = true) → ∀ (depth : Nat) (parent : String) (n : Nat), new.length ≤ depth →
        ∃ new' symbols' n', Retells .attributed rules depth parent scope' n symbols new' symbols' n'
  | .token kind lead text tail, hi, _, _, _, _, _, h, hnew, hknown, hsurvive =>
    token_retells hcase hi h hnew hknown hsurvive
  | .group lead choice tail, hi, _, _, _, _, _, h, hnew, hknown, _ =>
    group_retells hcase hi (choice_retells hcase choice hi.items) h hnew hknown

/-- What a sequence stands for is written again. -/
theorem sequence_retells (hcase : scope'.flag "ignoreCase" = false) : (s : List Item) →
    (∀ i ∈ s, i.Legible .attributed) →
    ∀ {name : String} {c c' : Compiled} {symbols : List Symbol} {new : List Rule},
      Item.sequenceSymbols .attributed name scope s c = .ok (symbols, c') → c'.rules = c.rules ++ new →
      (∀ r ∈ new, Known terminalSurvives rules (withDefault skips r)) →
      (∀ s ∈ symbols, terminalSurvives s = true) → ∀ (depth : Nat) (parent : String) (n : Nat), new.length ≤ depth →
        ∃ new' symbols' n', Retells .attributed rules depth parent scope' n symbols new' symbols' n'
  | [], hs, name, c, c', symbols, new, h, hnew, hknown, hsurvive, depth, parent, n, hdepth => by
    obtain ⟨rfl, rfl⟩ := sequenceSymbols_nil.1 h
    exact ⟨_, _, _, .nil⟩
  | i :: s, hs, name, c, c', symbols, new, h, hnew, hknown, hsurvive, depth, parent, n, hdepth => by
    rw [List.forall_mem_cons] at hs
    obtain ⟨front, c₁, back, hfront, hback, rfl⟩ := sequenceSymbols_cons.1 h
    obtain ⟨first, hfirst⟩ := symbols_grows i hfront
    obtain ⟨second, hsecond⟩ := sequenceSymbols_grows s hback
    obtain rfl := hfirst.toGrows.split hsecond.toGrows hnew
    rw [List.length_append] at hdepth
    rw [List.forall_mem_append] at hknown hsurvive
    obtain ⟨new₁, front', n₁, hfront⟩ :=
      item_retells hcase i hs.1 hfront hfirst.rules hknown.1 hsurvive.1 depth parent n (by omega)
    obtain ⟨new₂, back', n₂, hback⟩ :=
      sequence_retells hcase s hs.2 hback hsecond.rules hknown.2 hsurvive.2 depth parent n₁ (by omega)
    exact ⟨_, _, _, hfront.append hback⟩

/-- What the alternatives of a choice stand for is written again. -/
theorem choice_retells (hcase : scope'.flag "ignoreCase" = false) : (choice : List (List Item)) →
    (∀ s ∈ choice, ∀ i ∈ s, i.Legible .attributed) →
    ∀ {name : String} {c c' : Compiled} {alternatives : List (List Symbol)} {new : List Rule},
      Item.choiceSymbols .attributed name scope choice c = .ok (alternatives, c') → c'.rules = c.rules ++ new →
      (∀ r ∈ new, Known terminalSurvives rules (withDefault skips r)) →
      (∀ a ∈ alternatives, ∀ s ∈ a, terminalSurvives s = true) → ∀ (depth : Nat) (parent : String) (n : Nat),
      new.length ≤ depth →
        ∃ new' alternatives' n', RetellsAll .attributed rules depth parent scope' n alternatives new' alternatives' n'
  | [], hchoice, name, c, c', alternatives, new, h, hnew, hknown, hsurvive, depth, parent, n, hdepth => by
    obtain ⟨rfl, rfl⟩ := choiceSymbols_nil.1 h
    exact ⟨_, _, _, .nil⟩
  | s :: choice, hchoice, name, c, c', alternatives, new, h, hnew, hknown, hsurvive, depth, parent, n, hdepth => by
    rw [List.forall_mem_cons] at hchoice
    obtain ⟨front, c₁, back, hfront, hback, rfl⟩ := choiceSymbols_cons.1 h
    obtain ⟨first, hfirst⟩ := sequenceSymbols_grows s hfront
    obtain ⟨second, hsecond⟩ := choiceSymbols_grows choice hback
    obtain rfl := hfirst.toGrows.split hsecond.toGrows hnew
    rw [List.length_append] at hdepth
    rw [List.forall_mem_append] at hknown
    rw [List.forall_mem_cons] at hsurvive
    obtain ⟨new₁, front', n₁, hfront⟩ :=
      sequence_retells hcase s hchoice.1 hfront hfirst.rules hknown.1 hsurvive.1 depth parent n (by omega)
    obtain ⟨new₂, back', n₂, hback⟩ :=
      choice_retells hcase choice hchoice.2 hback hsecond.rules hknown.2 hsurvive.2 depth parent n₁ (by omega)
    exact ⟨_, _, _, .cons hfront hback⟩

end

/-! ## Lines -/

/-- Rules from whose lines others are compiled, and are written as the same lines. -/
structure RetellsLines (rules : List Rule) (n : Nat) (old new : List Rule) (n' : Nat) : Prop extends
    RereadsLines rules n old new n' where
  again : keepsParentheses rules = true → ∀ again : List Rule, Finds again new → new.length ≤ again.length →
    (productionsOf new).map (ruleLine again) = (productionsOf old).map (ruleLine rules)

theorem RetellsLines.nil : RetellsLines rules n [] [] n where
  toRereadsLines := .nil
  again _ _ _ _ := rfl

/-- Lines one after another are written again one after another. -/
theorem RetellsLines.append {front front' back back' : List Rule} (hfront : RetellsLines rules n front front' n')
    (hback : RetellsLines rules n' back back' n'') : RetellsLines rules n (front ++ back) (front' ++ back') n'' where
  toRereadsLines := hfront.toRereadsLines.append hback.toRereadsLines
  again hkeeps again hfound hlength := by
    rw [finds_append] at hfound
    rw [List.length_append] at hlength
    rw [productionsOf_append, productionsOf_append, List.map_append, List.map_append,
      hfront.again hkeeps again hfound.1 (by omega), hback.again hkeeps again hfound.2 (by omega)]

/-- The rules that alternatives need are helpers. -/
theorem RereadsAll.helper {alternatives alternatives' : List (List Symbol)}
    (hall : RereadsAll .attributed rules depth parent scope n alternatives new alternatives' n') :
    ∀ r ∈ new, isHelperName r.name = true := by
  obtain ⟨new', hgrows⟩ := choiceSymbols_grows _ (hall.reads ⟨[], n⟩ rfl)
  obtain rfl : new = new' := hgrows.rules
  exact hgrows.helper

/-- The line of a rule is written again, where its alternatives are. -/
theorem RetellsLines.line {r : Rule} {helpers : List Rule} {alternatives' : List (List Symbol)}
    (hhelpers : ∀ h ∈ helpers, isHelperName h.name = true) (hr : IsLine r)
    (hall : RetellsAll .attributed rules rules.length r.name (attributeStrings (ruleAttributes r)) n r.alternatives new
      alternatives' n') :
    RetellsLines rules n (helpers ++ [r]) (new ++ [{ r with alternatives := alternatives' }]) n' where
  toRereadsLines := .line hhelpers hr hall.told.length_eq.symm hall.toRereadsAll
  again hkeeps again hfound hlength := by
    have hbefore : productionsOf (helpers ++ [r]) = [r] := productionsOf_concat hhelpers hr.not_helper
    have hafter : productionsOf (new ++ [{ r with alternatives := alternatives' }]) =
        [{ r with alternatives := alternatives' }] := productionsOf_concat hall.helper hr.not_helper
    rw [finds_append] at hfound
    have hchoice := hall.again hkeeps again again.length hfound.1 (le_trans (by simp) hlength)
    rw [hbefore, hafter, List.map_singleton, List.map_singleton, ruleLine, ruleLine, hchoice]
    rfl

/-- A line is written again. -/
theorem line_retells (hl : l.Legible) (h : l.compile .attributed c = .ok c') (hnew : c'.rules = c.rules ++ new)
    (hdepth : new.length ≤ rules.length) (hknown : ∀ r ∈ new, Known terminalSurvives rules (withDefault skips r))
    (n : Nat) : ∃ new' n', RetellsLines rules n (new.map (withDefault skips)) new' n' := by
  obtain ⟨r, c₁, inner, rfl, -, hr, -, hchoice, hinner⟩ := line_grows hl h hnew
  rw [List.forall_mem_append] at hknown
  have hholds := (hknown.2 r List.mem_cons_self).holds
  rw [withDefault_alternatives] at hholds
  obtain ⟨new', alternatives', n', hall⟩ := choice_retells (ignoreCase_ruleAttributes (withDefault skips r)) l.choice
    (fun s hs => (hl.items s hs).2) hchoice hinner.rules hknown.1 hholds rules.length r.name n
    (le_trans (by simp) hdepth)
  rw [← withDefault_name skips r, ← withDefault_alternatives skips r] at hall
  rw [List.map_append, List.map_singleton]
  exact ⟨_, _, .line (hinner.withDefault skips) hr.withDefault hall⟩

/-- Lines are written again one after another. -/
theorem lines_retell (hlines : ∀ l ∈ lines, l.Legible) (h : compileLines .attributed c lines = .ok c')
    (hnew : c'.rules = c.rules ++ new) (hdepth : new.length ≤ rules.length)
    (hknown : ∀ r ∈ new, Known terminalSurvives rules (withDefault skips r)) (n : Nat) :
    ∃ new' n', RetellsLines rules n (new.map (withDefault skips)) new' n' := by
  induction lines generalizing c new n with
  | nil =>
    obtain rfl := compileLines_nil.1 h
    obtain rfl : new = [] := by simpa using hnew
    exact ⟨_, _, .nil⟩
  | cons l lines ih =>
    rw [List.forall_mem_cons] at hlines
    obtain ⟨c₁, hl, hmore⟩ := compileLines_cons.1 h
    obtain ⟨first, hfirst⟩ := compileLines_grows (List.forall_mem_singleton.2 hlines.1.name)
      (compileLines_cons.2 ⟨c₁, hl, rfl⟩)
    obtain ⟨second, hsecond⟩ := compileLines_grows (fun l hl => (hlines.2 l hl).name) hmore
    obtain rfl := hfirst.split hsecond hnew
    rw [List.length_append] at hdepth
    rw [List.forall_mem_append] at hknown
    obtain ⟨new₁, n₁, hfront⟩ := line_retells hlines.1 hl hfirst.rules (by omega) hknown.1 n
    obtain ⟨new₂, n₂, hback⟩ := ih hlines.2 hmore hsecond.rules (by omega) hknown.2 n₁
    rw [List.map_append]
    exact ⟨_, _, hfront.append hback⟩

/-- **The lines of rules whose terminals survive are written again.** -/
theorem compileLines_again (hlines : ∀ l ∈ lines, l.Legible) (h : compileLines .attributed {} lines = .ok c)
    (hrules : rules = c.rules.map (withDefault skips)) (hsurvive : terminalsSurvive rules = true) :
    ∃ again n, RetellsLines rules 0 rules again n := by
  obtain ⟨new, hgrows⟩ := compileLines_grows (fun l hl => (hlines l hl).name) h
  obtain rfl : c.rules = new := hgrows.rules
  have hfound : Finds rules rules := hrules ▸ finds_withDefault hgrows.distinct skips
  have hknown : ∀ r ∈ c.rules, Known terminalSurvives rules (withDefault skips r) := by
    intro r hr
    have hmem : withDefault skips r ∈ rules := hrules ▸ List.mem_map_of_mem hr
    refine ⟨hfound _ hmem, fun a ha s hs => ?_⟩
    exact List.all_eq_true.1 (List.all_eq_true.1 (List.all_eq_true.1 hsurvive _ hmem) a ha) s hs
  obtain ⟨again, n, hagain⟩ := lines_retell hlines h hgrows.rules (by simp [hrules]) hknown 0
  rw [← hrules] at hagain
  exact ⟨again, n, hagain⟩

/-- The helpers that are read again have different names. -/
theorem RetellsLines.distinct {again : List Rule} (h : RetellsLines rules 0 rules again n) :
    again.Pairwise fun h k => isHelperName h.name = true → h.name ≠ k.name := by
  have hnames : ∀ l ∈ (productionsOf rules).map (ruleLine rules), IsName l.name := by
    intro l hl
    obtain ⟨r, hr, rfl⟩ := List.mem_map.1 hl
    exact (h.legible r hr).name
  obtain ⟨new, hgrows⟩ := compileLines_grows hnames (h.reads {} rfl)
  obtain rfl : again = new := hgrows.rules
  exact hgrows.distinct

/-- What is read again is written as the same text, if no helper loses its parentheses. -/
theorem RetellsLines.text_again {again : List Rule} (h : RetellsLines rules 0 rules again n)
    (hkeeps : keepsParentheses rules = true) : grammarText .attributed again = grammarText .attributed rules := by
  rw [grammarText_eq, grammarText_eq, h.again hkeeps again (finds_of_distinct h.distinct) le_rfl]

end Grammarian.Notation
