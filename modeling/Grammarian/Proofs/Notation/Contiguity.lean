import Grammarian.Proofs.Notation.Lossless
import Grammarian.Proofs.Notation.Origins
import Grammarian.Proofs.Notation.Splitting
import Grammarian.Proofs.Parse.Commitment
import Grammarian.Proofs.Parse.Gaps
import Grammarian.Proofs.Parse.Reach

/-!
# White space inside of literals

A literal without marks that is taken apart is matched by a phase for each character, and white space may stand
before every phase of a rule that skips it. So the characters of a literal stand one behind another just when no
white space is taken for any of them but the first. A literal that is matched as a whole has only the first.
-/

namespace Grammarian

theorem Phase.takes_literal {ph : Phase} {value : List Char} (hplain : ph.reference.isPlain = true)
    (htarget : ph.target = .literal value) : ph.Takes (· = value) where
  plain := hplain
  takes := by
    intro answers input hit hhit
    rw [htarget, Target.plan, Plan.run] at hhit
    refine ⟨value, rfl, ?_⟩
    split at hhit
    next hempty =>
      obtain rfl := Option.some.inj hhit
      rw [List.isEmpty_iff.1 hempty]
      rfl
    next =>
      obtain ⟨rest, hrest, rfl⟩ := Option.map_eq_some_iff.1 hhit
      exact List.append_eq_of_isPrefixOf?_eq_some hrest

theorem Phase.takes_isOneOf {ph : Phase} {holds : Char → Bool} (hplain : ph.reference.isPlain = true)
    (htarget : Scene.IsOneOf holds ph.target) : ph.Takes fun word => ∃ d, word = [d] ∧ holds d = true where
  plain := hplain
  takes := by
    intro answers input hit hhit
    rw [htarget] at hhit
    cases input with
    | nil => cases hhit
    | cons d rest =>
      dsimp only at hhit
      split at hhit
      next hd =>
        obtain rfl := Option.some.inj hhit
        exact ⟨[d], ⟨d, rfl, hd⟩, rfl⟩
      next => cases hhit

namespace Notation

/-! ## The phases of a literal -/

/-- What the phases take that a literal without marks stands for. -/
def literalWords (ignoreCase : Bool) (text : List Char) : List (List Char → Prop) :=
  if takenApart text then (inner text).map fun c word => ∃ d, word = [d] ∧ countsAs ignoreCase c d = true
  else [(· = (Literal.decode (String.ofList text)).toList)]

/-- Whether a text is that of a literal: its characters one behind another where it is taken apart. -/
def IsLiteralText (ignoreCase : Bool) (text word : List Char) : Prop :=
  if takenApart text then List.Forall₂ (fun c d => countsAs ignoreCase c d = true) (inner text) word
  else word = (Literal.decode (String.ofList text)).toList

variable {text : List Char} {ignoreCase : Bool} {symbols : List Symbol}

theorem takes_splitLiteral (htext : IsQuoted text) (h : splitLiteral (String.ofList text) ignoreCase = .ok symbols) :
    List.Forall₂ (fun fits (ph : Phase) => ph.Takes fits) (literalWords ignoreCase text)
      (symbols.map Symbol.phase) := by
  rw [splitLiteral_eq] at h
  rw [literalWords]
  split at h
  next happart =>
    have hsplittable : ∀ c ∈ inner text, isSplittable c = true := by
      rw [takenApart, Bool.and_eq_true, List.all_eq_true] at happart
      exact fun c hc => happart.2 c (List.mem_of_mem_tail (List.mem_of_mem_dropLast hc))
    obtain ⟨symbols', hsymbols, heach⟩ := exists_charPatterns ignoreCase hsplittable
    obtain rfl : symbols' = symbols := Except.ok.inj (hsymbols.symm.trans h)
    rw [if_pos happart]
    refine List.forall₂_map_left_iff.2 (List.forall₂_map_right_iff.2 ((List.forall₂_map_left_iff.1 heach).imp ?_))
    rintro c s ⟨hplain, hone⟩
    exact Phase.takes_isOneOf hplain hone
  next happart =>
    obtain rfl := Except.ok.inj h
    rw [if_neg happart, ofText_quoted htext]
    exact .cons (Phase.takes_literal rfl rfl) .nil

/-- How the rounds of a literal take it. -/
structure LiteralTaken (s : Scene) (answers : Answers) (ignoreCase : Bool) (text : List Char) (first : Round)
    (more : List Round) : Prop where
  /-- from the first matched character to the last one -/
  ahead : ∃ rest, Round.stretch (first :: more) ++ rest = first.reached.rest
  words : List.Forall₂ (fun fits (r : Round) => fits r.word) (literalWords ignoreCase text) (first :: more)
  contiguous_iff : IsLiteralText ignoreCase text (Round.stretch (first :: more)) ↔
    ∀ r ∈ more, ¬ s.TakesSpace answers r.phase r.before
  whole : takenApart text = false → more = []

/-- The rounds of a literal among those of an alternative. -/
theorem literalTaken_of_rounds {s : Scene} {answers : Answers} (hanswers : answers.Obey .free) (htext : IsQuoted text)
    (hsplit : splitLiteral (String.ofList text) ignoreCase = .ok symbols) {front back : List Symbol} {g : Growth}
    {earlier more later : List Round} {first : Round}
    (hrounds : s.rounds answers 1 false g ((front ++ (symbols ++ back)).map Symbol.phase) =
      earlier ++ (first :: more ++ later))
    (hnumbers : (first :: more).map (·.number) = List.range' (front.length + 1) symbols.length)
    (hmatched : ∀ r ∈ first :: more, r.got.isSome = true) :
    LiteralTaken s answers ignoreCase text first more := by
  have hphases := takes_splitLiteral htext hsplit
  have hlength : (first :: more).length = (symbols.map Symbol.phase).length := by
    simpa using congrArg List.length hnumbers
  have hnumber : first.number = front.length + 1 := by
    cases hsymbols : symbols.length with
    | zero => simp [hsymbols] at hlength
    | succ n =>
      rw [hsymbols, List.range'_succ, List.map_cons] at hnumbers
      exact (List.cons.inj hnumbers).1
  obtain ⟨again, hfrom⟩ := Scene.rounds_from hrounds
  have hdrop : ((front ++ (symbols ++ back)).map Symbol.phase).drop (first.number - 1) =
      symbols.map Symbol.phase ++ back.map Symbol.phase := by
    rw [hnumber, Nat.add_sub_cancel, ← List.map_drop, List.drop_left, List.map_append]
  rw [hdrop] at hfrom
  obtain ⟨⟨rest, hrest⟩, hwords, hgaps⟩ := Scene.rounds_takes hanswers hphases hfrom hlength hmatched
  rw [List.forall_mem_cons] at hgaps
  have hahead : Round.stretch (first :: more) ++ rest = first.reached.rest := by
    obtain ⟨number, again', g', ph, -, rfl, -, -⟩ := Scene.exists_of_rounds_eq hrounds
    have hgap := Scene.gap_append (s := s) hanswers number ph again' g'
    refine List.append_cancel_left (hgap.trans (hrest.symm.trans ?_)).symm
    rw [Round.stretch, List.flatMap_cons]
    simp only [List.append_assoc]
  cases happart : takenApart text with
  | true =>
    have heach : List.Forall₂ (fun holds (r : Round) => ∃ d, r.word = [d] ∧ holds d = true)
        ((inner text).map (countsAs ignoreCase)) (first :: more) := by
      rw [literalWords, if_pos happart, List.forall₂_map_left_iff] at hwords
      exact List.forall₂_map_left_iff.2 hwords
    refine ⟨⟨rest, hahead⟩, hwords, ?_, by simp [happart]⟩
    have hgapless : (∀ r ∈ more, r.gap = []) ↔ ∀ r ∈ more, ¬ s.TakesSpace answers r.phase r.before :=
      forall₂_congr hgaps.2
    rw [IsLiteralText, if_pos happart, ← hgapless, ← Round.forall₂_stretch_iff heach, List.forall₂_map_left_iff]
  | false =>
    have hone := hwords
    rw [literalWords, if_neg (by simp [happart])] at hone
    obtain ⟨hword, hmore⟩ := List.forall₂_cons.1 hone
    obtain rfl := List.forall₂_nil_left_iff.1 hmore
    refine ⟨⟨rest, hahead⟩, hwords, iff_of_true ?_ (fun r hr => absurd hr List.not_mem_nil), fun _ => rfl⟩
    rw [IsLiteralText, if_neg (by simp [happart]), Round.stretch, hword]
    exact List.append_nil _

/-- Every alternative of a choice, also inside of groups, has legible items. -/
theorem Nested.legible {style : Style} {choice : List (List Item)} {s : List Item} (h : Nested choice s)
    (hall : ∀ s ∈ choice, ∀ i ∈ s, i.Legible style) : ∀ i ∈ s, i.Legible style := by
  induction h with
  | here hs => exact hall _ hs
  | inside hs hi _ ih =>
    cases hall _ hs _ hi with
    | group hlead htail hne hnes hinner => exact ih hinner

end Notation

open Notation

/-- Wherever the phases of a literal match one behind another in a call of the rule, in whatever state of the calls
around it, their rounds take the literal. -/
def Table.TakesLiteral (t : Table) (e : Table.Entry) (front symbols back : List Symbol) (ignoreCase : Bool)
    (text : List Char) : Prop :=
  ∀ maxDepth budget depth active caller input earlier first more later,
    (t.sceneOf e depth).rounds (t.answersWithin maxDepth budget active depth caller input) 1 false { rest := input }
        ((front ++ (symbols ++ back)).map Symbol.phase) = earlier ++ (first :: more ++ later) →
    (first :: more).map (·.number) = List.range' (front.length + 1) symbols.length →
    (∀ r ∈ first :: more, r.got.isSome = true) →
    LiteralTaken (t.sceneOf e depth) (t.answersWithin maxDepth budget active depth caller input) ignoreCase text first
      more

namespace Dialect

/-- **White space in a literal.** Wherever a line has a literal without marks, also inside of a group, there are
phases for it in an alternative of a rule. Where these match one behind another, the input from the first matched
character to the last one is the literal just when no white space is taken for a character behind the first. A
literal that is not taken apart has no other character to take it for. -/
theorem literal_contiguous_iff {source : String} {as : List (List Char × List Char)} {lines : List Line}
    {rules : List Rule} (hread : ReadsAs source as lines) (hrules : custom.rulesOf source = .ok rules) {l : Line}
    (hl : l ∈ lines) {before after : List Item} {text : List Char}
    (hs : Nested l.choice (before ++ .token "StringLiteral" [] text [] :: after)) {options : Options} {p : Parser}
    (hp : Parser.build rules options = .ok p) :
    ∃ name e front symbols back, p.table.entry? name = some e ∧
      (e.rule.skipsWhitespace = true → l.scope.whitespace?.or
        (if Attributes.get? (attributeStrings as) "ws" = some "implicit" then some true else none) = some true) ∧
      (front ++ (symbols ++ back)).map Symbol.phase ∈ e.alternatives ∧
      splitLiteral (String.ofList text) (l.scope.flag "ignoreCase") = .ok symbols ∧
      p.table.TakesLiteral e front symbols back (l.scope.flag "ignoreCase") text := by
  obtain ⟨r, hr, symbols, hmem, parent, c₁, c₂, hsymbols, hflag⟩ := hread.alternative_mem hrules hl hs
  obtain ⟨c₃, c₄, front, part, back, hpart, rfl, -⟩ := sequenceSymbols_split hsymbols
  have hquoted : IsQuoted text := by
    have hitem := hs.legible (fun s hs => ((hread.legible l hl).items s hs).2) _
      (List.mem_append_right before List.mem_cons_self)
    cases hitem with
    | token htext => exact htext.isQuoted
  have hsplit := splitLiteral_of_symbols hpart
  obtain ⟨htable, -⟩ := Parser.build_eq_ok_iff.1 hp
  refine ⟨r.name, _, front, part, back, (Table.entry?_eq_some_iff htable).2 ⟨r, hr, rfl, rfl⟩, ?_, ?_, hsplit, ?_⟩
  · intro hskips
    rw [← hflag]
    exact Rule.implicitWhitespace_of_skipsWhitespace hskips
  · rw [Rule.phases, Rule.settled_alternatives]
    exact List.mem_map_of_mem hmem
  · intro maxDepth budget depth active caller input earlier first more later hrounds hnumbers hmatched
    have hanswers : (p.table.answersWithin maxDepth budget active depth caller input).Obey .free := fun rule s =>
      Table.call_obeys (Law.free_respected _) _ _ _ _ rule s
    exact literalTaken_of_rounds hanswers hquoted hsplit hrounds hnumbers hmatched

/-- A word of a line that skips white space, and the white space. -/
def spacedLines : List Line :=
  [⟨['A'], [[.token "StringLiteral" [] "\"ab\"".toList []]], [implicitWs]⟩,
    ⟨"WS".toList, [[.token "StringLiteral" [] "\" \"".toList []]], []⟩]

theorem spacedLines_legible : ∀ l ∈ spacedLines, l.Legible := by decide +kernel

/-- The rules that they stand for. -/
def spacedRules : List Rule :=
  [{ name := "A", alternatives := [[.ofPattern "a", .ofPattern "b"]], implicitWhitespace := some true },
    { name := "WS", alternatives := [[.literal " "]] }]

def spacedSource : String := "A ::= \"ab\" \x7b ws=implicit \x7d\nWS ::= \" \"\n"

theorem spacedSource_reads : ReadsAs spacedSource [] spacedLines :=
  @readsAs_sheetText [] spacedLines nofun spacedLines_legible

theorem spacedSource_rules : custom.rulesOf spacedSource = .ok spacedRules := by
  rw [spacedSource_reads.rulesOf_eq]
  decide +kernel

theorem wellOrdered_spacedRules : Table.WellOrdered [] (spacedRules.map (Rule.settled "WS")) "WS" := by
  decide +kernel

theorem spacedRules_build : Parser.build spacedRules {} = .ok ⟨.ofRules spacedRules "WS", {}⟩ :=
  Parser.build_eq_ok_iff.2 ⟨wellOrdered_spacedRules.build, rfl⟩

/-- The table of the rules, and the entry of the rule for the word. -/
def spacedTable : Table := .ofRules spacedRules "WS"

def spacedEntry : Table.Entry where
  rule := { name := "A", alternatives := [[.ofPattern "a", .ofPattern "b"]], implicitWhitespace := some true }
  alternatives := [[Symbol.ofPattern "a", .ofPattern "b"].map Symbol.phase]

/-- A round of the rule for the word, called on `a b`. -/
def spacedRound (number : Nat) (c : String) (g : Growth) : Round :=
  (spacedTable.sceneOf spacedEntry 0).roundAt (spacedTable.answersWithin none 2 [] 0 "A" ['a', ' ', 'b']) number
    (Symbol.ofPattern c).phase false g

/-- The round for the first character, and the one for the second with the blank before it. -/
def spacedRounds : List Round :=
  [spacedRound 1 "a" { rest := ['a', ' ', 'b'] }, spacedRound 2 "b" { rest := [' ', 'b'], started := true }]

theorem spacedRounds_eq :
    (spacedTable.sceneOf spacedEntry 0).rounds (spacedTable.answersWithin none 2 [] 0 "A" ['a', ' ', 'b']) 1 false
      { rest := ['a', ' ', 'b'] } ([Symbol.ofPattern "a", .ofPattern "b"].map Symbol.phase) = spacedRounds := by
  have hfirst : (spacedRound 1 "a" { rest := ['a', ' ', 'b'] }).ending =
      .next { rest := [' ', 'b'], started := true } := rfl
  have hsecond : ∃ g, (spacedRound 2 "b" { rest := [' ', 'b'], started := true }).ending = .next g := by
    have hnext : (match (spacedRound 2 "b" { rest := [' ', 'b'], started := true }).ending with
      | .next _ => true
      | _ => false) = true := by decide +kernel
    split at hnext
    next g hend => exact ⟨g, hend⟩
    next => cases hnext
  obtain ⟨g, hsecond⟩ := hsecond
  unfold spacedRound at hfirst hsecond
  rw [List.map_cons, List.map_cons, Scene.rounds_cons, hfirst, Scene.roundsAfter, Scene.rounds_cons, hsecond,
    Scene.roundsAfter, List.map_nil, Scene.rounds]
  rfl

/-- The only phases of the table with those of the two characters among them are these two themselves. -/
theorem spacedTable_phases {name : String} {e : Table.Entry} {front back : List Symbol}
    (he : spacedTable.entry? name = some e)
    (h : (front ++ ([Symbol.ofPattern "a", .ofPattern "b"] ++ back)).map Symbol.phase ∈ e.alternatives) :
    name = "A" ∧ e = spacedEntry ∧ front = [] ∧ back = [] := by
  obtain ⟨r, hr, rfl, rfl⟩ := (Table.entry?_eq_some_iff wellOrdered_spacedRules.build).1 he
  rw [spacedRules, List.mem_cons, List.mem_singleton] at hr
  rcases hr with rfl | rfl
  · have hlength := congrArg List.length (List.mem_singleton.1 h)
    simp only [List.length_map, List.length_append, List.length_cons, List.length_nil] at hlength
    obtain rfl : front = [] := List.length_eq_zero_iff.1 (by omega)
    obtain rfl : back = [] := List.length_eq_zero_iff.1 (by omega)
    exact ⟨rfl, rfl, rfl, rfl⟩
  · have hlength := congrArg List.length (List.mem_singleton.1 h)
    simp only [List.length_map, List.length_append, List.length_cons, List.length_nil] at hlength
    omega

/-- The word is taken by two phases, with white space between them or without: on `a b` by rounds that reach from the
first character to the last. -/
theorem spacedLines_takes : ∃ p name e front symbols back,
    custom.rulesOf spacedSource = .ok spacedRules ∧ Parser.build spacedRules {} = .ok p ∧
    p.table.entry? name = some e ∧ (front ++ (symbols ++ back)).map Symbol.phase ∈ e.alternatives ∧
    splitLiteral "\"ab\"" false = .ok symbols ∧
    p.table.TakesLiteral e front symbols back false "\"ab\"".toList ∧
    ∃ first more, (p.table.sceneOf e 0).rounds (p.table.answersWithin none 2 [] 0 name ['a', ' ', 'b']) 1 false
        { rest := ['a', ' ', 'b'] } ((front ++ (symbols ++ back)).map Symbol.phase) = first :: more ∧
      LiteralTaken (p.table.sceneOf e 0) (p.table.answersWithin none 2 [] 0 name ['a', ' ', 'b']) false
        "\"ab\"".toList first more ∧
      Round.stretch (first :: more) = ['a', ' ', 'b'] := by
  have hl : spacedLines.head (by decide) ∈ spacedLines := List.mem_cons_self
  have hword : Nested (spacedLines.head (by decide)).choice
      ([] ++ .token "StringLiteral" [] "\"ab\"".toList [] :: []) := .here List.mem_cons_self
  obtain ⟨name, e, front, symbols, back, he, -, hmem, hsplit, htakes⟩ :=
    literal_contiguous_iff spacedSource_reads spacedSource_rules hl hword spacedRules_build
  refine ⟨_, name, e, front, symbols, back, spacedSource_rules, spacedRules_build, he, hmem, hsplit, htakes, ?_⟩
  have hsymbols : splitLiteral "\"ab\"" false = .ok [.ofPattern "a", .ofPattern "b"] := by decide +kernel
  obtain rfl := Except.ok.inj (hsymbols.symm.trans hsplit)
  obtain ⟨rfl, rfl, rfl, rfl⟩ := spacedTable_phases he hmem
  have hmatched : ∀ r ∈ spacedRounds, r.got.isSome = true :=
    List.forall_mem_cons.2 ⟨by decide +kernel, List.forall_mem_singleton.2 (by decide +kernel)⟩
  exact ⟨_, _, spacedRounds_eq, htakes none 2 0 [] "A" ['a', ' ', 'b'] [] _ _ [] spacedRounds_eq rfl hmatched,
    by decide +kernel⟩

/-- A blank is taken inside of the word: the text of its rule is `a b`, with no error. -/
theorem blank_inside_literal : ∃ p tree, ReadsAs spacedSource [] spacedLines ∧
    custom.rulesOf spacedSource = .ok spacedRules ∧ Parser.build spacedRules {} = .ok p ∧
    p.parse "a b" none = .ok tree ∧ tree.root.text = "a b" ∧ tree.errors.length = 0 := by
  have hparses : (((⟨.ofRules spacedRules "WS", {}⟩ : Parser).parse "a b" none).toOption.any fun tree =>
      tree.root.text = "a b" && tree.errors.length = 0) = true := by decide +kernel
  obtain ⟨tree, htree, htest⟩ := exists_ok_of_any hparses
  rw [Bool.and_eq_true, decide_eq_true_eq, decide_eq_true_eq] at htest
  exact ⟨_, tree, spacedSource_reads, spacedSource_rules, spacedRules_build, htree, htest⟩

end Dialect

end Grammarian
