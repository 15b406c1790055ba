import Mathlib.Algebra.GroupWithZero.Nat
import Grammarian.Proofs.Notation.Lossless
import Grammarian.Proofs.Notation.Origins
import Grammarian.Proofs.Notation.Splitting
import Grammarian.Proofs.Parse.Commitment
import Grammarian.Proofs.Parse.Reach

/-!
# Items and phases

An item of the attributed notation stands for one phase, with one exception: a literal without marks that is taken
apart stands for a phase a character. The attribute `pin` counts phases, so it names the item in its place only as
long as no literal up to there is taken apart.
-/

namespace Grammarian

/-- Calls of the rule are committed to the alternative from when phase `n`, or one that is marked for it, has
matched, and not before. -/
def Table.CommitsFrom (t : Table) (e : Table.Entry) (phs : List Phase) (n : Nat) : Prop :=
  ∀ depth answers input front r back,
    (t.sceneOf e depth).rounds answers 1 false { rest := input } phs = front ++ r :: back →
      (r.before.pinned = true ↔ ∃ r' ∈ front, r'.got.isSome = true ∧ r'.phase.reference.isNegative = false ∧
        (r'.number = n ∨ r'.phase.reference.pin = true))

theorem Table.commitsFrom {t : Table} {e : Table.Entry} {n : Nat} (hpin : e.rule.pinAt = some n) (phs : List Phase) :
    t.CommitsFrom e phs n := by
  intro depth answers input front r back h
  have hcommits : ∀ r' : Round, (t.sceneOf e depth).Commits r' ↔ r'.got.isSome = true ∧
      r'.phase.reference.isNegative = false ∧ (r'.number = n ∨ r'.phase.reference.pin = true) := by
    intro r'
    have hpins : (t.sceneOf e depth).pins r'.number r'.phase = true ↔
        r'.number = n ∨ r'.phase.reference.pin = true := by
      have hphase : (t.sceneOf e depth).rule.pinAt = some n := hpin
      rw [Scene.pins, Bool.or_eq_true, decide_eq_true_eq, hphase, Option.some.injEq, or_comm]
      exact or_congr_left eq_comm
    rw [← hpins]
    exact ⟨fun hc => ⟨hc.matched, hc.sought, hc.pins⟩, fun hc => ⟨hc.2.2, hc.1, hc.2.1⟩⟩
  rw [Scene.before_pinned_iff h]
  simp [hcommits]

namespace Notation

/-! ## The phases of an item -/

/-- How many phases an item stands for. -/
def Item.phaseCount : Item → Nat
  | .token "StringLiteral" [] text [] => if takenApart text then (inner text).length else 1
  | _ => 1

theorem Item.phaseCount_pos (i : Item) : 0 < i.phaseCount := by
  unfold phaseCount
  split
  · split
    next happart =>
      rw [takenApart, Bool.and_eq_true, Bool.not_eq_true', List.isEmpty_eq_false_iff] at happart
      exact List.length_pos_iff.2 happart.1
    next => exact Nat.one_pos
  · exact Nat.one_pos

/-- The number of the phase with which the first `n` items are complete. -/
def lastPhase (s : List Item) (n : Nat) : Nat := ((s.take n).map Item.phaseCount).sum

theorem length_le_sum_phaseCount (s : List Item) : s.length ≤ (s.map Item.phaseCount).sum := by
  induction s with
  | nil => simp
  | cons i s ih =>
    have hpos := i.phaseCount_pos
    rw [List.length_cons, List.map_cons, List.sum_cons]
    omega

theorem sum_phaseCount_eq_iff (s : List Item) :
    (s.map Item.phaseCount).sum = s.length ↔ ∀ i ∈ s, i.phaseCount = 1 := by
  induction s with
  | nil => simp
  | cons i s ih =>
    have hpos := i.phaseCount_pos
    have hle := length_le_sum_phaseCount s
    rw [List.forall_mem_cons, ← ih, List.map_cons, List.sum_cons, List.length_cons]
    omega

/-- As many items as phases are complete just when each of them is one phase. -/
theorem lastPhase_eq_iff {s : List Item} {n : Nat} (hn : n ≤ s.length) :
    lastPhase s n = n ↔ ∀ i ∈ s.take n, i.phaseCount = 1 := by
  rw [← sum_phaseCount_eq_iff, List.length_take, Nat.min_eq_left hn, lastPhase]

section Symbols

variable {parent : String} {scope : Attributes} {c c' : Compiled} {i : Item} {symbols : List Symbol}

theorem length_splitLiteral {text : List Char} {ignoreCase : Bool}
    (h : splitLiteral (String.ofList text) ignoreCase = .ok symbols) :
    symbols.length = if takenApart text then (inner text).length else 1 := by
  rw [splitLiteral_eq] at h
  split at h
  next happart => rw [if_pos happart, (mapM_ok h).1]
  next happart =>
    cases h
    rw [if_neg happart, List.length_singleton]

theorem length_class {kind : String} {lead text tail : List Char} (hkind : kind = "CharCode" ∨ kind = "CharClass")
    (h : (Item.token kind lead text tail).symbols .attributed parent scope c = .ok (symbols, c')) :
    symbols.length = 1 := by
  rw [symbols_class_eq hkind] at h
  cases hclass : classSymbol parent scope (leadMark lead) (String.ofList text) (String.ofList tail) c with
  | error e =>
    rw [hclass] at h
    cases h
  | ok r =>
    rw [hclass] at h
    cases h
    rfl

/-- An item stands for as many symbols as it has phases. -/
theorem length_symbols (hi : i.Legible .attributed)
    (h : i.symbols .attributed parent scope c = .ok (symbols, c')) : symbols.length = i.phaseCount := by
  cases hi with
  | @token kind lead text tail htext hlead htail =>
    cases htext with
    | name hname =>
      cases h
      simp [Item.phaseCount]
    | quoted hquoted =>
      by_cases hmarks : lead = [] ∧ tail = []
      · obtain ⟨rfl, rfl⟩ := hmarks
        rw [length_splitLiteral (splitLiteral_of_symbols h), Item.phaseCount]
      · rw [symbols_markedLiteral hlead htail hquoted hmarks] at h
        cases h
        unfold Item.phaseCount
        split
        next heq =>
          cases heq
          exact absurd ⟨rfl, rfl⟩ hmarks
        next => rfl
    | code hcode =>
      rw [length_class (.inl rfl) h]
      simp [Item.phaseCount]
    | charClass hclass =>
      rw [length_class (.inr rfl) h]
      simp [Item.phaseCount]
  | group hlead htail hne hnes hall =>
    obtain ⟨alternatives, c₁, -, rfl, -⟩ := symbols_group.1 h
    rfl

end Symbols

/-! ## The attribute -/

theorem phaseNumber?_toString_eq {n m : Nat} (h : phaseNumber? (toString n) = some m) : m = n := by
  rw [phaseNumber?_eq, Nat.toString_eq_ofList_toDigits, String.toList_ofList, Nat.ofDigitChars_ten_toDigits] at h
  split at h
  · cases h
  · split at h
    · exact (Option.some.inj h).symm
    · cases h

/-- The phase that a line names for its rule. -/
theorem pinAt_rule {l : Line} {alternatives : List (List Symbol)} {n : Nat}
    (hread : readAttributes [] l.attributes = .ok l.scope) (hcounted : Counted l.scope (l.rule alternatives))
    (hpin : ("pin".toList, (toString n).toList) ∈ l.attributes) : (l.rule alternatives).pinAt = some n := by
  have hvalue := get?_of_mem hread hpin
  simp only [String.ofList_toList] at hvalue
  have hsome := hcounted.pin
  rw [hvalue, Option.isSome_some] at hsome
  obtain ⟨m, hm⟩ := Option.isSome_iff_exists.1 hsome.symm
  have hnumber : (l.rule alternatives).pinAt = phaseNumber? (toString n) := by
    simp only [Line.rule, ownRule, hvalue, Option.bind_some]
  rw [hnumber] at hm
  rw [hnumber, hm, phaseNumber?_toString_eq hm]

end Notation

namespace Dialect

open Notation

/-- **What `pin` counts.** A line of one alternative with `pin=n` has a rule whose phases are those of its items one
after another. The rule is committed from when phase `n` has matched, or one marked `~`; this is the phase with which
item `n` is complete just when each item up to there is one phase. -/
theorem pin_counts_phases {source : String} {as : List (List Char × List Char)} {lines : List Line}
    {rules : List Rule} (hread : ReadsAs source as lines) (hrules : custom.rulesOf source = .ok rules) {l : Line}
    (hl : l ∈ lines) {s : List Item} (hchoice : l.choice = [s]) {n : Nat}
    (hpin : ("pin".toList, (toString n).toList) ∈ l.attributes) (hn : n ≤ s.length) :
    ∃ r ∈ rules, ∃ parts : List (List Symbol), r.name = String.ofList l.name ∧ r.alternatives = [parts.flatten] ∧
      List.Forall₂ (fun i part => part.length = i.phaseCount ∧
        ∃ c c', i.symbols .attributed r.name l.scope c = .ok (part, c')) s parts ∧
      r.pinAt = some n ∧ (lastPhase s n = n ↔ ∀ i ∈ s.take n, i.phaseCount = 1) ∧
      ∀ options p, Parser.build rules options = .ok p → ∃ e, p.table.entry? r.name = some e ∧
        e.alternatives = [parts.flatten.map Symbol.phase] ∧
        p.table.CommitsFrom e (parts.flatten.map Symbol.phase) n := by
  obtain ⟨skips, alternatives, c₁, c₂, hown, hsymbols, hcounted, -, hmem, -⟩ := hread.rule_mem hrules hl
  rw [hchoice] at hsymbols
  obtain ⟨symbols, c₃, back, hsequence, hback, rfl⟩ := choiceSymbols_cons.1 hsymbols
  obtain ⟨rfl, rfl⟩ := choiceSymbols_nil.1 hback
  obtain ⟨parts, rfl, hparts⟩ := sequenceSymbols_parts hsequence
  have hlegible : ∀ i ∈ s, i.Legible .attributed :=
    ((hread.legible l hl).items s (by rw [hchoice]; exact List.mem_singleton_self s)).2
  have hphase : (l.rule [parts.flatten]).pinAt = some n := pinAt_rule hown hcounted hpin
  have hlengths : List.Forall₂ (fun i part => part.length = i.phaseCount ∧
      ∃ c c', i.symbols .attributed (String.ofList l.name) l.scope c = .ok (part, c')) s parts := by
    refine ((List.forall₂_and_left _ _).2 ⟨hlegible, hparts⟩).imp ?_
    rintro i part ⟨hi, c, c', h⟩
    exact ⟨length_symbols hi h, c, c', h⟩
  refine ⟨_, hmem, parts, by simp [Line.rule, ownRule], by simp [Line.rule, ownRule], ?_, ?_, lastPhase_eq_iff hn, ?_⟩
  · simpa [Line.rule, ownRule] using hlengths
  · simpa using hphase
  · intro options p hp
    obtain ⟨htable, -⟩ := Parser.build_eq_ok_iff.1 hp
    refine ⟨_, (Table.entry?_eq_some_iff htable).2 ⟨_, hmem, rfl, rfl⟩, ?_, Table.commitsFrom ?_ _⟩
    · simp [Rule.phases, Line.rule, ownRule]
    · simpa using hphase

/-- A line whose attribute names the equals sign, and a line for the names around it. -/
def settingLines : List Line :=
  [⟨"Setting".toList, [[.token "NCName" [] "Key".toList [], .token "StringLiteral" [] "'='".toList [],
      .token "NCName" [] "Key".toList []]], [("pin".toList, "2".toList)]⟩,
    ⟨"Key".toList, [[.token "CharClass" [] "[a-z]".toList []]], []⟩]

theorem settingLines_legible : ∀ l ∈ settingLines, l.Legible := by decide +kernel

/-- The rules that they stand for. -/
def settingRules : List Rule :=
  [{ name := "Setting"
     alternatives := [[.reference (.plain "Key"), .ofPattern "=", .reference (.plain "Key")]]
     pinAt := some 2 },
    { name := "Key", alternatives := [[.ofPattern "[a-z]"]] }]

theorem wellOrdered_settingRules :
    Table.WellOrdered ["Setting"] (settingRules.map (Rule.settled "WS")) "WS" := by
  decide +kernel

/-- A setting is committed from its equals sign on. -/
theorem settingLines_commits : ∃ p e, custom.rulesOf (String.ofList (sheetText [] settingLines)) = .ok settingRules ∧
    Parser.build settingRules {} = .ok p ∧ p.table.entry? "Setting" = some e ∧
    ∃ phs, e.alternatives = [phs] ∧ p.table.CommitsFrom e phs 2 := by
  have hread : ReadsAs (String.ofList (sheetText [] settingLines)) [] settingLines :=
    readsAs_sheetText nofun settingLines_legible
  have hrules : custom.rulesOf (String.ofList (sheetText [] settingLines)) = .ok settingRules := by
    rw [hread.rulesOf_eq]
    decide +kernel
  have hbuild : Parser.build settingRules {} = .ok ⟨.ofRules settingRules "WS", {}⟩ :=
    Parser.build_eq_ok_iff.2 ⟨wellOrdered_settingRules.build, rfl⟩
  obtain ⟨r, -, parts, hname, -, -, -, -, hcommits⟩ := pin_counts_phases hread hrules
    (l := settingLines.head (by decide)) List.mem_cons_self rfl (n := 2) (by decide) (by decide)
  have hsetting : r.name = "Setting" := hname
  obtain ⟨e, he, halternatives, hfrom⟩ := hcommits _ _ hbuild
  exact ⟨_, e, hrules, hbuild, hsetting ▸ he, _, halternatives, hfrom⟩

/-- A line that begins with a literal of two characters. -/
def wordLine : Line where
  name := ['A']
  choice := [[.token "StringLiteral" [] "\"ab\"".toList [], .token "StringLiteral" [] "\"c\"".toList []]]
  attributes := [("pin".toList, "1".toList)]

theorem wordLine_legible : wordLine.Legible := by decide +kernel

/-- The rule that it stands for. -/
def wordRules : List Rule :=
  [{ name := "A", alternatives := [[.ofPattern "a", .ofPattern "b", .ofPattern "c"]], pinAt := some 1 }]

/-- Where the first item is a literal of two characters, `pin=1` names its first character: the item is complete with
the second phase, but `ax` is taken for the rule, with a syntax error behind the `a`. -/
theorem pin_inside_literal : ∃ p tree, ReadsAs "A ::= \"ab\" \"c\" \x7b pin=1 \x7d\n" [] [wordLine] ∧
    custom.rulesOf "A ::= \"ab\" \"c\" \x7b pin=1 \x7d\n" = .ok wordRules ∧
    wordLine.choice.map (lastPhase · 1) = [2] ∧ Parser.build wordRules {} = .ok p ∧ p.parse "ax" none = .ok tree ∧
    tree.errors.length = 1 := by
  have hread : ReadsAs "A ::= \"ab\" \"c\" \x7b pin=1 \x7d\n" [] [wordLine] :=
    @readsAs_sheetText [] [wordLine] nofun (by simpa using wordLine_legible)
  have hrules : custom.rulesOf "A ::= \"ab\" \"c\" \x7b pin=1 \x7d\n" = .ok wordRules := by
    rw [hread.rulesOf_eq]
    decide +kernel
  have hparses : (((⟨.ofRules wordRules "WS", {}⟩ : Parser).parse "ax" none).toOption.any fun tree =>
      tree.errors.length = 1) = true := by decide +kernel
  obtain ⟨tree, htree, herrors⟩ := exists_ok_of_any hparses
  have hordered : Table.WellOrdered ["A"] (wordRules.map (Rule.settled "WS")) "WS" := by
    decide +kernel
  exact ⟨_, tree, hread, hrules, by decide, Parser.build_eq_ok_iff.2 ⟨hordered.build, rfl⟩, htree,
    of_decide_eq_true herrors⟩

end Dialect

end Grammarian
