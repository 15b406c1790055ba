import Grammarian.Proofs.Notation.Renumbering
import Grammarian.Proofs.Notation.W3cSources

/-!
# Sources of the W3C notation written and read

The text of rules that the W3C notation has read is read as rules that these are reworded to, as long as each literal
and class is read as it is written. From every production all inputs come to the same with both.
-/

namespace Grammarian

namespace Notation

open Rewording

variable {rules again new : List Rule} {n n' n'' : Nat} {name : String} {w w' : Rewording} {c c' : Compiled}
  {r r' : Rule} {alternatives alternatives' : List (List Symbol)} {l : Line} {lines : List Line}

/-! ## Lines -/

/-- Rules whose lines are read as the rules that they are reworded to. -/
structure RewordsLines (rules : List Rule) (n : Nat) (w : Rewording) (n' : Nat) : Prop where
  fits : Fits w
  unattributed : ∀ r ∈ productionsOf w.before, (bareLine rules r).Unattributed
  reads : ∀ c : Compiled, c.helpers = n →
    compileLines .w3c c ((productionsOf w.before).map (bareLine rules)) = .ok (adding c w.after n')
  again : keepsParentheses rules = true → ∀ again : List Rule, Finds again w.after → w.after.length ≤ again.length →
    (productionsOf w.after).map (bareLine again) = (productionsOf w.before).map (bareLine rules)

theorem RewordsLines.nil : RewordsLines rules n [] n where
  fits := .nil
  unattributed := List.forall_mem_nil _
  reads := by
    rintro c rfl
    exact compileLines_nil.2 (adding_nil c)
  again _ _ _ _ := rfl

/-- Lines one after another are reworded one after another. -/
theorem RewordsLines.append (hfront : RewordsLines rules n w n') (hback : RewordsLines rules n' w' n'') :
    RewordsLines rules n (w ++ w') n'' where
  fits := hfront.fits.append hback.fits
  unattributed := by
    rw [before_append, productionsOf_append]
    exact List.forall_mem_append.2 ⟨hfront.unattributed, hback.unattributed⟩
  reads := by
    intro c hc
    rw [before_append, productionsOf_append, List.map_append, after_append,
      ← adding_adding c w.after w'.after n' n'']
    exact compileLines_append (hfront.reads c hc) (hback.reads _ rfl)
  again hkeeps again hfound hlength := by
    rw [after_append, finds_append] at hfound
    rw [after_append, List.length_append] at hlength
    rw [after_append, before_append, productionsOf_append, productionsOf_append, List.map_append, List.map_append,
      hfront.again hkeeps again hfound.1 (by omega), hback.again hkeeps again hfound.2 (by omega)]

theorem bareLine_congr (hname : r'.name = r.name)
    (h : r'.alternatives.map (·.map (written .w3c again again.length)) =
      r.alternatives.map (·.map (written .w3c rules rules.length))) : bareLine again r' = bareLine rules r := by
  rw [bareLine, bareLine, hname, h]

/-- The line of a rule is compiled to the helpers that its alternatives have again, and a rule of its name. -/
theorem compile_bareLine (hname : isHelperName r.name = false)
    (hall : RewordsAll rules rules.length r.name n r.alternatives w alternatives' n') (hc : c.helpers = n) :
    (bareLine rules r).compile .w3c c = .ok (adding c (w.after ++ [rule r.name alternatives']) n') := by
  have hline : String.ofList (bareLine rules r).name = r.name := String.ofList_toList
  refine (compile_unattributed rfl (hline ▸ hname)).2 ⟨alternatives', adding c w.after n', ?_, ?_⟩
  · rw [hline]
    exact hall.reads c hc
  · rw [hline, Compiled.push, adding, adding, List.append_assoc]

/-- A line is read in other words from what is written of its rule. -/
theorem line_rewords (hl : l.Unattributed) (h : l.compile .w3c c = .ok c') (hnew : c'.rules = c.rules ++ new)
    (hdepth : new.length ≤ rules.length) (hknown : ∀ r ∈ new, Known writesBack rules r) (n : Nat) :
    ∃ w n', w.before = new ∧ RewordsLines rules n w n' := by
  have hname := hl.name.not_helper
  have hlegible : IsName (String.ofList l.name).toList := by
    rw [String.toList_ofList]
    exact hl.name
  obtain ⟨alternatives, c₁, hchoice, rfl⟩ := (compile_unattributed hl.attributes hname).1 h
  obtain ⟨inner, hinner⟩ := choiceSymbols_grows l.choice hchoice
  obtain rfl : new = inner ++ [rule (String.ofList l.name) alternatives] := by
    rw [Compiled.push, hinner.rules, List.append_assoc] at hnew
    exact (List.append_cancel_left hnew).symm
  rw [List.forall_mem_append] at hknown
  have hitems : ∀ s ∈ l.choice, ∀ i ∈ s, i.Legible .w3c := fun s hs => (hl.items s hs).2
  obtain ⟨w, alternatives', n', rfl, hall⟩ := choice_rewords l.choice hitems hchoice hinner.rules hknown.1
    (hknown.2 _ List.mem_cons_self).holds rules.length (String.ofList l.name) n (le_trans (by simp) hdepth)
  obtain ⟨hne, hfull⟩ := choiceSymbols_full hl.choice (fun s hs => (hl.items s hs).1) hitems hchoice
  have hpair : w.Pair (rule (String.ofList l.name) alternatives) (rule (String.ofList l.name) alternatives') := by
    refine Pair.mk ⟨nofun, rfl, rfl, rfl⟩ ⟨nofun, rfl, rfl, rfl⟩ rfl rfl (fun _ => rfl) ?_ hall.like
    intro hhelper
    exact absurd (hname.symm.trans hhelper) (by decide)
  have hafter : ∀ r ∈ w.after, isHelperName r.name = true := by
    intro r' hr'
    obtain ⟨r, hr⟩ := mem_after.1 hr'
    exact (hall.fits.links _ hr).helper.trans (hinner.helper r (mem_before hr))
  have hbefore : productionsOf (before (w ++ [(rule (String.ofList l.name) alternatives,
      some (rule (String.ofList l.name) alternatives'))])) = [rule (String.ofList l.name) alternatives] := by
    rw [before_concat]
    exact productionsOf_concat hinner.helper hname
  have hlast : productionsOf (w.after ++ [rule (String.ofList l.name) alternatives']) =
      [rule (String.ofList l.name) alternatives'] := productionsOf_concat hafter hname
  refine ⟨_, n', before_concat w _ _, hall.fits.concat hpair, ?_, ?_, ?_⟩
  · rw [hbefore]
    exact List.forall_mem_singleton.2
      ⟨hlegible, mt List.map_eq_nil_iff.1 hne, legible_alternatives hfull hall.legible, rfl⟩
  · intro c hc
    rw [hbefore, after_concat]
    exact compileLines_cons.2 ⟨_, compile_bareLine hname hall hc, rfl⟩
  · intro hkeeps again hfound hlength
    rw [after_concat, finds_append] at hfound
    have hdepth : w.after.length ≤ again.length := by
      rw [after_concat, List.length_append] at hlength
      exact Nat.le_of_add_right_le hlength
    rw [hbefore, after_concat, hlast, List.map_singleton, List.map_singleton]
    exact congrArg (fun l => [l]) (bareLine_congr rfl (hall.again hkeeps again again.length hfound.1 hdepth))

/-- Lines are read in other words from what is written of their rules. -/
theorem lines_rewords (hlines : ∀ l ∈ lines, l.Unattributed) (h : compileLines .w3c c lines = .ok c')
    (hnew : c'.rules = c.rules ++ new) (hdepth : new.length ≤ rules.length)
    (hknown : ∀ r ∈ new, Known writesBack rules r) (n : Nat) : ∃ w n', w.before = new ∧ RewordsLines rules n w n' := by
  induction lines generalizing c new n with
  | nil =>
    obtain rfl := compileLines_nil.1 h
    obtain rfl : new = [] := by simpa using hnew
    exact ⟨[], n, rfl, .nil⟩
  | cons l lines ih =>
    rw [List.forall_mem_cons] at hlines
    obtain ⟨c₁, hl, hmore⟩ := compileLines_cons.1 h
    obtain ⟨first, hfirst⟩ := compileLines_grows (List.forall_mem_singleton.2 hlines.1.name)
      (compileLines_cons.2 ⟨c₁, hl, rfl⟩)
    obtain ⟨second, hsecond⟩ := compileLines_grows (fun l hl => (hlines.2 l hl).name) hmore
    obtain rfl := hfirst.split hsecond hnew
    rw [List.length_append] at hdepth
    rw [List.forall_mem_append] at hknown
    obtain ⟨w, n₁, rfl, hline⟩ := line_rewords hlines.1 hl hfirst.rules (by omega) hknown.1 n
    obtain ⟨w', n', rfl, hrest⟩ := ih hlines.2 hmore hsecond.rules (by omega) hknown.2 n₁
    exact ⟨w ++ w', n', before_append w w', hline.append hrest⟩

/-! ## Grammars -/

/-- The rules of lines without attributes are read again in other words. -/
theorem exists_rewording (hlines : ∀ l ∈ lines, l.Unattributed) (h : rulesOf .w3c (grammarNode [] lines) = .ok rules)
    (hwrites : rulesWriteBack rules = true) : ∃ w n, w.before = rules ∧ RewordsLines rules 0 w n := by
  obtain ⟨n, hcompile⟩ := (rulesOf_bare fun l hl s hs => ((hlines l hl).items s hs).2).1 h
  obtain ⟨new, hgrows⟩ := compileLines_grows (fun l hl => (hlines l hl).name) hcompile
  obtain rfl : rules = new := hgrows.rules
  refine lines_rewords hlines hcompile hgrows.rules le_rfl (fun r hr => ?_) 0
  refine ⟨helperOf?_of_mem hgrows.distinct hr, fun a ha s hs => ?_⟩
  exact List.all_eq_true.1 (List.all_eq_true.1 (List.all_eq_true.1 hwrites r hr) a ha) s hs

namespace RewordsLines

variable (h : RewordsLines rules 0 w n)

include h

/-- The helpers in place of others have different names. -/
theorem distinct : w.after.Pairwise fun h k => isHelperName h.name = true → h.name ≠ k.name := by
  have hnames : ∀ l ∈ (productionsOf w.before).map (bareLine rules), IsName l.name := by
    intro l hl
    obtain ⟨r, hr, rfl⟩ := List.mem_map.1 hl
    exact (h.unattributed r hr).name
  obtain ⟨new, hgrows⟩ := compileLines_grows hnames (h.reads {} rfl)
  obtain rfl : w.after = new := hgrows.rules
  exact hgrows.distinct

/-- The rewording is sound. -/
theorem sound : w.Sound := ⟨h.fits.links, h.distinct⟩

/-- No rule in its new wording recovers. -/
theorem strict : ∀ r ∈ w.after, r.recoverTo = none := by
  intro r' hr'
  obtain ⟨r, hr⟩ := mem_after.1 hr'
  exact (h.sound.pair hr).plain'.strict

theorem strict_before : ∀ r ∈ w.before, r.recoverTo = none := by
  intro r hr
  obtain ⟨⟨_, o⟩, hmem, rfl⟩ := List.mem_map.1 hr
  cases o with
  | none => exact (h.sound.leaf hmem).plain.strict
  | some r' => exact (h.sound.pair hmem).plain.strict

/-- What is written of the rules is read as the rules that they are reworded to. -/
theorem rulesOf_text (hbefore : w.before = rules) :
    Dialect.w3c.rulesOf (grammarText .w3c rules) = .ok w.after := by
  have hlines : ∀ l ∈ (productionsOf rules).map (bareLine rules), l.Unattributed := by
    intro l hl
    obtain ⟨r, hr, rfl⟩ := List.mem_map.1 hl
    exact h.unattributed r (hbefore ▸ hr)
  rw [grammarText_bare (hbefore ▸ h.strict_before), w3c_rulesOf_lines hlines]
  refine (rulesOf_bare fun l hl s hs => ((hlines l hl).items s hs).2).2 ⟨n, ?_⟩
  have hreads := h.reads {} rfl
  rw [hbefore] at hreads
  exact hreads

/-- They are written as the same text, if no helper loses its parentheses. -/
theorem text_after (hbefore : w.before = rules) (hkeeps : keepsParentheses rules = true) :
    grammarText .w3c w.after = grammarText .w3c rules := by
  rw [grammarText_bare h.strict, h.again hkeeps w.after (finds_of_distinct h.distinct) le_rfl, hbefore,
    grammarText_bare (hbefore ▸ h.strict_before)]

/-- Without lonely groups nothing is left out. -/
theorem not_left (hbefore : w.before = rules) (hnone : rules.any isLonelyGroup = false) (a : String) : ¬ w.Left a := by
  rintro ⟨k, hk, -⟩
  have hgroup := h.fits.left k hk
  rw [List.any_eq_false] at hnone
  exact hnone k (hbefore ▸ mem_before hk) hgroup

end RewordsLines

end Notation

namespace Dialect

open Notation

/-- **Rules of the W3C notation are written and read.** The text of rules whose literals and classes are read as they
are written is read again, and written as the same text if no helper loses its parentheses. Where the rules are
accepted, those that are read of their text are too, and from every production all inputs come to the same with both;
with a bound on the depth of rules, this holds if no group is one terminal, which takes no depth the second time. -/
theorem w3c_roundTrip {source : String} {rules : List Rule} (h : w3c.rulesOf source = .ok rules)
    (hwrites : rulesWriteBack rules = true) :
    ∃ text again, w3c.emit? rules = some text ∧ w3c.rulesOf text = .ok again ∧
      (keepsParentheses rules = true → w3c.emit? again = some text) ∧
      ∀ options p, Parser.build rules options = .ok p → ∃ p', Parser.build again options = .ok p' ∧
        (options.maxDepth = none ∨ rules.any isLonelyGroup = false → ∀ r ∈ rules, isHelperName r.name = false →
          ∀ input, p'.parse input (some r.name) = p.parse input (some r.name)) := by
  obtain ⟨-, -, lines, hlines, -, hrules⟩ := unattributed_of_rulesOf h
  obtain ⟨w, n, hbefore, hreads⟩ := exists_rewording hlines hrules hwrites
  refine ⟨grammarText .w3c rules, w.after, rfl, hreads.rulesOf_text hbefore, fun hkeeps => ?_, fun options p hp => ?_⟩
  · exact congrArg some (hreads.text_after hbefore hkeeps)
  · rw [← hbefore] at hp
    obtain ⟨p', hp', hparse⟩ := hreads.sound.parse_eq hp
    rw [hbefore] at hparse
    exact ⟨p', hp', fun hdepth => hparse (hdepth.imp_right (hreads.not_left hbefore))⟩

-- A group around a group of one terminal loses a pair of parentheses whenever it is written.
example : grammarText .w3c
        [helper "%A_0" [[.literal "x"]], helper "%A_1" [phrase ["%A_0"]], rule "A" [phrase ["%A_1"]]] =
      "A ::= (\"x\")\n" ∧
    grammarText .w3c [helper "%A_0" [[.literal "x"]], rule "A" [phrase ["%A_0"]]] = "A ::= \"x\"\n" := by
  decide +kernel

/-- Marks, classes and codes, and a group of one terminal, which loses its helper. -/
def numberGrammar : String :=
  "Number ::= \"-\"? [0-9]+ (\".\" [#x30-#x39]+)? | (\"n/a\")*\nText ::= '\"' ([^\"] | #x9)* '\"'\n"

/-- The lines of the grammar. -/
def numberLines : List Line :=
  [⟨"Number".toList,
      [[.token "StringLiteral" [] "\"-\"".toList ['?'], .token "CharClass" [] "[0-9]".toList ['+'],
        .group [] [[.token "StringLiteral" [] "\".\"".toList [],
          .token "CharClass" [] "[#x30-#x39]".toList ['+']]] ['?']],
      [.group [] [[.token "StringLiteral" [] "\"n/a\"".toList []]] ['*']]], []⟩,
    ⟨"Text".toList, [[.token "StringLiteral" [] "'\"'".toList [],
      .group [] [[.token "CharClass" [] "[^\"]".toList []], [.token "CharCode" [] "#x9".toList []]] ['*'],
      .token "StringLiteral" [] "'\"'".toList []]], []⟩]

theorem numberGrammar_rulesOf : w3c.rulesOf numberGrammar = Notation.rulesOf .w3c (grammarNode [] numberLines) :=
  @w3c_rulesOf_lines numberLines (by decide +kernel)

/-- A grammar with groups and classes, emitted and compiled again. -/
theorem numberGrammar_roundTrip : ∃ rules, w3c.rulesOf numberGrammar = .ok rules ∧ rulesWriteBack rules = true ∧
    keepsParentheses rules = true ∧
    ∃ text again, w3c.emit? rules = some text ∧ w3c.rulesOf text = .ok again ∧ w3c.emit? again = some text ∧
      ∀ p, Parser.build rules {} = .ok p → ∃ p', Parser.build again {} = .ok p' ∧
        ∀ r ∈ rules, isHelperName r.name = false → ∀ input,
          p'.parse input (some r.name) = p.parse input (some r.name) := by
  have hmade : ((Notation.rulesOf .w3c (grammarNode [] numberLines)).toOption.any fun rules =>
      rulesWriteBack rules && keepsParentheses rules) = true := by decide +kernel
  obtain ⟨rules, hrules, hboth⟩ := exists_ok_of_any hmade
  rw [← numberGrammar_rulesOf] at hrules
  obtain ⟨hwrites, hkeeps⟩ := Bool.and_eq_true_iff.1 hboth
  obtain ⟨text, again, htext, hagain, hsame, hparsers⟩ := w3c_roundTrip hrules hwrites
  refine ⟨rules, hrules, hwrites, hkeeps, text, again, htext, hagain, hsame hkeeps, fun p hp => ?_⟩
  obtain ⟨p', hp', hparse⟩ := hparsers _ p hp
  exact ⟨p', hp', hparse (.inl rfl)⟩

/-- A line of a literal with both quotation marks. -/
def bothMarksLine : Line := ⟨['A'], [[.token "StringLiteral" [] "\"'\\x22\"".toList []]], []⟩

/-- A literal with both quotation marks: a backslash is written before the second one, which ends the literal for
all that. -/
theorem bothMarks_not_read : ∃ rules text, w3c.rulesOf "A ::= \"'\\x22\"\n" = .ok rules ∧
    w3c.emit? rules = some text ∧ ∀ again, w3c.rulesOf text ≠ .ok again := by
  have hread : w3c.rulesOf "A ::= \"'\\x22\"\n" = Notation.rulesOf .w3c (grammarNode [] [bothMarksLine]) :=
    @w3c_rulesOf_lines [bothMarksLine] (by decide +kernel)
  have hmade : ((Notation.rulesOf .w3c (grammarNode [] [bothMarksLine])).toOption.any fun rules =>
      grammarText .w3c rules = "A ::= \"'\\\"\"\n") = true := by decide +kernel
  obtain ⟨rules, hrules, htext⟩ := exists_ok_of_any hmade
  rw [← hread] at hrules
  have hnone : (w3cRulesRead "A ::= \"'\\\"\"\n").toOption.isNone = true := by decide +kernel
  refine ⟨rules, _, hrules, rfl, fun again hagain => ?_⟩
  rw [of_decide_eq_true htext, rulesOf_w3c] at hagain
  rw [hagain] at hnone
  cases hnone

end Dialect

end Grammarian
