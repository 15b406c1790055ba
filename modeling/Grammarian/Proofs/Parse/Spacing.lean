import Grammarian.Proofs.Parse.Lookahead
import Grammarian.Proofs.Parse.Reach

/-!
# Rules that skip white space where there is none

A rule that skips white space looks for its target again after each failure. Where the rule for white space
matches nowhere, the second look is the first one again: it leaves the cursor, the children and the commitment of
the alternative as they are, so that the rule does what it does without looking for white space at all. Skipping
white space is thus a conservative extension of a grammar: `Parser.spaced_parse`.
-/

namespace Grammarian

/-- The rule with the given word on whether white space may stand between its phases. -/
def Rule.spaced (flag : Option Bool) (r : Rule) : Rule := { r with implicitWhitespace := flag }

/-- The rule matches terminals and the end of the input only. -/
def Rule.Atomic (r : Rule) : Prop :=
  r.recoverTo = none ∧ ∀ alt ∈ r.alternatives, ∀ s ∈ alt, s.needs? = none

/-- The answers to questions about suffixes of `input`; there is none to any other question. -/
def Answers.within (answers : Answers) (input : List Char) : Answers :=
  fun rule s => if s <:+ input then answers rule s else ⟨none, []⟩

/-- A plan that asks for nothing comes to the same whatever the answers are. -/
theorem Plan.run_of_asksNothing {α : Type} {p : Plan α} (h : p.AsksOnly fun _ => False) (answers answers' : Answers) :
    p.run answers = p.run answers' :=
  h.run_congr (fun _ _ _ => trivial) fun _ _ hfalse => hfalse.elim

/-! ## One call -/

namespace Scene

variable {s : Scene} {answers : Answers} {flag : Option Bool}

/-- The surroundings of a call of the rule with another word on white space. -/
def spaced (flag : Option Bool) (s : Scene) : Scene := { s with rule := s.rule.spaced flag }

/-- Looking again where there is no white space comes to what the first look came to. -/
theorem reach_value (hnone : ∀ cs, (answers s.whitespace cs).value = none) (target : Target) (g : Growth) :
    ((s.reach target g).run answers).value = (g, ((target.plan g.rest).run answers).value) := by
  have hskip : ((skipWhitespace s.whitespace g).run answers).value = g := by
    refine skipWhitespace_value_of_not_space ?_
    rintro ⟨-, m, hm, -⟩
    rw [hnone] at hm
    cases hm
  rw [reach, Plan.run_bind_value]
  cases hgot : ((target.plan g.rest).run answers).value with
  | some hit => rfl
  | none =>
    dsimp only
    split
    · rw [Plan.run_bind_value, hskip, Plan.run_bind_value, hgot]
      rfl
    · rfl

theorem roundAt_spaced (hnone : ∀ cs, (answers s.whitespace cs).value = none) (number : Nat) (ph : Phase)
    (again : Bool) (g : Growth) :
    (s.spaced flag).roundAt answers number ph again g = s.roundAt answers number ph again g := by
  have hreach : (((s.spaced flag).reach ph.target g).run answers).value = ((s.reach ph.target g).run answers).value :=
    (reach_value (s := s.spaced flag) hnone ph.target g).trans (reach_value hnone ph.target g).symm
  simp only [roundAt, hreach]
  rfl

/-- The rounds of an alternative are the same ones, by induction along them. -/
theorem rounds_spaced (hnone : ∀ cs, (answers s.whitespace cs).value = none) (number : Nat) (again : Bool)
    (g : Growth) (phs : List Phase) :
    (s.spaced flag).rounds answers number again g phs = s.rounds answers number again g phs := by
  induction number, again, g, phs using rounds.induct s answers with
  | case1 number again g => simp [rounds]
  | case2 number again g ph phs ihAgain ihNext =>
    rw [rounds_cons, rounds_cons, roundAt_spaced hnone]
    congr 1
    cases hend : (s.roundAt answers number ph again g).ending with
    | again g' => exact ihAgain g' hend
    | next g' => exact ihNext g'
    | stop g' | fail => rfl

theorem alternatives_spaced (hnone : ∀ cs, (answers s.whitespace cs).value = none) (input : List Char)
    (alts : List (List Phase)) :
    (((s.spaced flag).alternatives input alts).run answers).value =
      ((s.alternatives input alts).run answers).value := by
  induction alts with
  | nil => rfl
  | cons phs alts ih =>
    have halternative : (((s.spaced flag).alternative input phs).run answers).value =
        ((s.alternative input phs).run answers).value := by
      rw [alternative_value, alternative_value, rounds_spaced hnone]
      rfl
    rw [alternatives, alternatives, Plan.run_bind_value, Plan.run_bind_value, halternative]
    cases ((s.alternative input phs).run answers).value with
    | none => exact ih
    | some m => rfl

end Scene

/-! ## Tables -/

namespace Table

/-- The entry of the rule with another word on white space. -/
def Entry.spaced (flag : Option Bool) (e : Entry) : Entry := ⟨e.rule.spaced flag, e.alternatives⟩

/-- The table with other words on white space, by the names of the rules. -/
def spaced (flag : String → Option Bool) (t : Table) : Table :=
  { t with entries := t.entries.map fun e => e.spaced (flag e.rule.name) }

variable {t : Table} {flag : String → Option Bool} {name : String} {maxDepth : Option Nat} {text : List Char}

theorem Entry.plan_spaced_value {answers : Answers} {whitespace : String}
    (hnone : ∀ cs, (answers whitespace cs).value = none) (e : Entry) (flag : Option Bool) (depth : Nat)
    (input : List Char) : (((e.spaced flag).plan whitespace depth input).run answers).value =
      ((e.plan whitespace depth input).run answers).value := by
  have halternatives : ((Scene.alternatives ⟨e.rule.spaced flag, whitespace, depth⟩ input e.alternatives).run
      answers).value = ((Scene.alternatives ⟨e.rule, whitespace, depth⟩ input e.alternatives).run answers).value :=
    Scene.alternatives_spaced (s := ⟨e.rule, whitespace, depth⟩) hnone input e.alternatives
  rw [Entry.plan, Entry.plan, Plan.run_bind_value, Plan.run_bind_value]
  exact congrArg (Option.map e.rule.collapse) halternatives

theorem entry?_spaced (t : Table) (flag : String → Option Bool) (name : String) :
    entry? (t.spaced flag) name = (t.entry? name).map (Entry.spaced (flag name)) := by
  have hfind : entry? (t.spaced flag) name = (t.entry? name).map fun e => e.spaced (flag e.rule.name) := by
    unfold entry? spaced
    rw [List.find?_map]
    rfl
  rw [hfind]
  cases he : t.entry? name with
  | none => rfl
  | some e => simp only [Option.map_some, name_of_entry he]

/-- A plan for a part of a text asks about parts of the text only. -/
theorem run_within {e : Entry} (he : t.entry? name = some e) (depth : Nat) {input : List Char} (hinput : input <:+ text)
    {answers : Answers} (hanswers : answers.Obey .free) :
    (e.plan t.whitespace depth input).run (answers.within text) = (e.plan t.whitespace depth input).run answers :=
  (plan_meets (Law.free_respected t.rules) he depth input).run_congr (fun rule s _ => hanswers rule s)
    fun _ _ hs => if_pos (List.IsSuffix.trans hs hinput)

theorem call_obeys_free (t : Table) (maxDepth : Option Nat) (budget : Nat) (active : List Call) (depth : Nat) :
    Answers.Obey (t.call maxDepth budget active depth) .free := fun rule s =>
  call_obeys (Law.free_respected t.rules) maxDepth budget active depth rule s

theorem call_zero_value (t : Table) (maxDepth : Option Nat) (active : List Call) (depth : Nat) (name : String)
    (input : List Char) : (t.call maxDepth 0 active depth name input).value = none := by
  refine Option.eq_none_iff_forall_not_mem.2 fun m hm => ?_
  obtain ⟨e, b, -, hb, -⟩ := exists_run_of_mem_call hm
  cases hb

/-- Calls come to the same whatever is said on white space in the table, if there is none in the text. The
induction is on the budget. -/
theorem call_spaced_value (hnone : ∀ budget active depth s, s <:+ text →
      (t.call maxDepth budget active depth t.whitespace s).value = none) (flag : String → Option Bool)
    (budget : Nat) (active : List Call) (depth : Nat) (name : String) {input : List Char} (hinput : input <:+ text) :
    ((t.spaced flag).call maxDepth budget active depth name input).value =
      (t.call maxDepth budget active depth name input).value := by
  induction budget generalizing active depth name input with
  | zero => rw [call_zero_value, call_zero_value]
  | succ budget ih =>
    cases he : t.entry? name with
    | none =>
      have he' : entry? (t.spaced flag) name = none := by rw [entry?_spaced, he]; rfl
      rw [call_undeclared he, call_undeclared he']
    | some e =>
      have he' : entry? (t.spaced flag) name = some (e.spaced (flag name)) := by rw [entry?_spaced, he]; rfl
      by_cases hdeep : maxDepth.any (· < depth) = true
      · rw [call_too_deep he hdeep, call_too_deep he' hdeep]
      · by_cases hactive : (name, input.length) ∈ active
        · rw [call_in_progress he hdeep hactive, call_in_progress he' hdeep hactive]
        · rw [call_enter he hdeep hactive, call_enter he' hdeep hactive, concluded_value, concluded_value,
            ← run_within he depth hinput (call_obeys_free t _ _ _ _),
            ← run_within he' depth hinput (call_obeys_free (t.spaced flag) _ _ _ _)]
          refine (Plan.run_value_congr (fun rule s => ?_) _).trans
            (Entry.plan_spaced_value (fun s => ?_) e _ depth input)
          · unfold Answers.within
            split
            next hs => exact ih _ _ rule hs
            next => rfl
          · unfold Answers.within
            split
            next hs => exact hnone _ _ _ s hs
            next => rfl

/-- A rule that asks for nothing matches in every call as it does in a match begun afresh, or not at all. -/
theorem call_value_of_asksNothing {e : Entry} (he : t.entry? name = some e)
    (hasks : ∀ depth input, (e.plan t.whitespace depth input).AsksOnly fun _ => False) {input : List Char}
    (hnone : (t.matchRule maxDepth name input).value = none) (budget : Nat) (active : List Call) (depth : Nat) :
    (t.call maxDepth budget active depth name input).value = none := by
  have hstart : ¬ maxDepth.any (· < 0) = true := by cases maxDepth <;> simp
  rw [matchRule, budgetFor, call_enter he hstart List.not_mem_nil, concluded_value] at hnone
  refine Option.eq_none_iff_forall_not_mem.2 fun m hm => ?_
  obtain ⟨e', b, he', rfl, hm⟩ := exists_run_of_mem_call hm
  obtain rfl : e = e' := Option.some.inj (he.symm.trans he')
  have hdepth := Plan.run_deepen_value (t.call maxDepth b ((name, input.length) :: active) (depth + 1)) depth
    (e.plan t.whitespace 0 input)
  rw [e.deepen_plan, Nat.zero_add, Plan.run_of_asksNothing (hasks 0 input) _ _, hnone] at hdepth
  rw [hdepth] at hm
  cases hm

/-! ## Accepted rules -/

section Build

variable {rules : List Rule} {whitespace : String}

/-- Rules are as valid as before once fewer of them skip white space. -/
theorem Valid.spaced (h : Valid rules whitespace) (hflag : ∀ r ∈ rules, flag r.name ≠ some true) :
    Valid (rules.map fun r => r.spaced (flag r.name)) whitespace := by
  have hnames : (rules.map fun r => r.spaced (flag r.name)).map (·.name) = rules.map (·.name) := by
    rw [List.map_map]
    rfl
  have hstarts : StartsWith (rules.map fun r => r.spaced (flag r.name)) = StartsWith rules := by
    funext a b
    simp only [StartsWith, List.mem_map, exists_exists_and_eq_and]
    rfl
  refine ⟨hnames ▸ h.distinct, List.forall_mem_map.2 h.nonempty, ?_, List.forall_mem_map.2 h.lookahead, ?_, ?_,
    hstarts ▸ h.acyclic, ?_⟩
  · rw [hnames]
    exact List.forall_mem_map.2 h.resolved
  · rw [hnames]
    exact List.forall_mem_map.2 h.recovery
  · rintro ⟨r', hr', hskips⟩
    obtain ⟨r, hr, rfl⟩ := List.mem_map.1 hr'
    exact absurd hskips (hflag r hr)
  · obtain ⟨r, hr, hentry⟩ := h.entry
    exact ⟨_, List.mem_map_of_mem hr, hentry⟩

/-- What is said on white space, the white-space rule settled. -/
def settledFlag (whitespace : String) (flag : Option Bool) (name : String) : Option Bool :=
  if name = whitespace then some false else flag

theorem settled_spaced (whitespace : String) (flag : Option Bool) (r : Rule) :
    (r.spaced flag).settled whitespace =
      (r.settled whitespace).spaced (settledFlag whitespace flag (r.settled whitespace).name) := by
  rw [Rule.settled_name, settledFlag]
  by_cases hname : r.name = whitespace
  · simp [Rule.settled, Rule.spaced, hname]
  · simp [Rule.settled, Rule.spaced, hname]

/-- Accepted rules are accepted with the word that none of them skips white space. -/
theorem build_spaced (h : build rules whitespace = .ok t) {flag : Option Bool} (hflag : flag ≠ some true) :
    build (rules.map (Rule.spaced flag)) whitespace = .ok (t.spaced (settledFlag whitespace flag)) := by
  obtain ⟨hproblems, rfl⟩ := build_eq_ok_iff.1 h
  have hrules : (rules.map (Rule.spaced flag)).map (Rule.settled whitespace) =
      (rules.map (Rule.settled whitespace)).map fun r => r.spaced (settledFlag whitespace flag r.name) := by
    rw [List.map_map, List.map_map]
    exact List.map_congr_left fun r _ => settled_spaced whitespace flag r
  obtain ⟨hvalid, hend⟩ := problems_eq_nil_iff_valid.1 hproblems
  refine build_eq_ok_iff.2 ⟨?_, ?_⟩
  · rw [hrules, problems_eq_nil_iff_valid]
    refine ⟨hvalid.spaced fun r _ => ?_, fun hstarts => hend ?_⟩
    · unfold settledFlag
      split
      · nofun
      · exact hflag
    · obtain ⟨r', hr', hstarts⟩ := hstarts
      obtain ⟨r, hr, rfl⟩ := List.mem_map.1 hr'
      exact ⟨r, hr, hstarts⟩
  · simp only [ofRules, spaced, hrules, List.map_map]
    rfl

/-- The white-space rule of an accepted table asks for nothing if it is atomic. -/
theorem asksNothing_of_atomic (h : build rules whitespace = .ok t) {e : Entry} (he : t.entry? whitespace = some e)
    (hatomic : ∀ r ∈ rules, r.name = whitespace → r.Atomic) (depth : Nat) (input : List Char) :
    (e.plan t.whitespace depth input).AsksOnly fun _ => False := by
  obtain ⟨r, hr, hname, rfl⟩ := (entry?_eq_some_iff h).1 he
  obtain ⟨hrecover, hneeds⟩ := hatomic r hr hname
  have hasks : (r.settled whitespace).asks t.whitespace = [] := by
    have hnone : r.alternatives.flatten.filterMap Symbol.needs? = [] := by
      rw [List.filterMap_eq_nil_iff]
      intro s hs
      obtain ⟨alt, halt, hs⟩ := List.mem_flatten.1 hs
      exact hneeds alt halt s hs
    simp [Rule.asks, Rule.settled, hname, Rule.skipsWhitespace, hrecover, hnone]
  refine (asksOnly_plan rfl t.whitespace depth input).mono fun asked hasked => ?_
  rw [hasks] at hasked
  exact List.not_mem_nil hasked

end Build

end Table

namespace Parser

/-- Parsing may start at the same rule. -/
theorem startName_spaced (t : Table) (flag : String → Option Bool) (options : Options) (target : Option String) :
    startName ⟨t.spaced flag, options⟩ target = startName ⟨t, options⟩ target := by
  have hstart : (t.spaced flag).start?.map (·.name) = t.start?.map (·.name) := by
    have hrules : (t.spaced flag).rules = t.rules.map fun r => r.spaced (flag r.name) := by
      simp only [Table.rules, Table.spaced, List.map_map]
      rfl
    rw [Table.start?, hrules, List.find?_map, Option.map_map]
    rfl
  rw [startName, startName, hstart]

/-- A parse comes to the same whatever is said on white space in the table, if there is none in the input. -/
theorem parse_spaced {t : Table} {options : Options} {input : String}
    (hnone : ∀ budget active depth s, s <:+ input.toList →
      (t.call options.maxDepth budget active depth t.whitespace s).value = none)
    (flag : String → Option Bool) (target : Option String) :
    parse ⟨t.spaced flag, options⟩ input target = parse ⟨t, options⟩ input target := by
  have hname := startName_spaced t flag options target
  have hcontains : (t.spaced flag).contains (startName ⟨t, options⟩ target) =
      t.contains (startName ⟨t, options⟩ target) := by
    rw [Table.contains, Table.entry?_spaced, Option.isSome_map, Table.contains]
  have hbudget : (t.spaced flag).budgetFor input.toList = t.budgetFor input.toList := by
    simp [Table.budgetFor, Table.spaced]
  have hmatch : (startMatch ⟨t.spaced flag, options⟩ input target).value =
      (startMatch ⟨t, options⟩ input target).value := by
    rw [startMatch, startMatch, hname, Table.matchRule, Table.matchRule, hbudget]
    exact Table.call_spaced_value hnone flag _ _ _ _ List.suffix_rfl
  rw [parse, parse]
  by_cases hdeclared : t.contains (startName ⟨t, options⟩ target) = true
  · rw [run_of_contains (p := ⟨t, options⟩) hdeclared,
      run_of_contains (by rw [hname, hcontains]; exact hdeclared), hmatch, hname]
  · rw [run_of_not_contains (p := ⟨t, options⟩) hdeclared,
      run_of_not_contains (by rw [hname, hcontains]; exact hdeclared), hname]

/-- **Skipping white space changes nothing where there is none.** Take any accepted rules of which the white-space
rule is atomic, and say of none of them that it skips white space. They are accepted all the same, with the same
options, and every parse of an input at no place of which the white-space rule matches comes to the same tree, or
to the same failure. -/
theorem spaced_parse {rules : List Rule} {options : Options} {p : Parser} (h : Parser.build rules options = .ok p)
    (hatomic : ∀ r ∈ rules, r.name = options.whitespaceRule → r.Atomic) {flag : Option Bool}
    (hflag : flag ≠ some true) :
    ∃ p', Parser.build (rules.map (Rule.spaced flag)) options = .ok p' ∧
      ∀ input : String, (∀ s, s <:+ input.toList →
          (p.table.matchRule options.maxDepth options.whitespaceRule s).value = none) →
        ∀ target, p'.parse input target = p.parse input target := by
  obtain ⟨htable, hoptions⟩ := build_eq_ok_iff.1 h
  have hspaced := Table.build_spaced htable hflag
  refine ⟨⟨p.table.spaced (Table.settledFlag options.whitespaceRule flag), options⟩,
    build_eq_ok_iff.2 ⟨hspaced, rfl⟩, fun input hnone target => ?_⟩
  have hwhitespace : p.table.whitespace = options.whitespaceRule := by
    rw [(Table.build_eq_ok_iff.1 htable).2]
    rfl
  have hcalls : ∀ budget active depth s, s <:+ input.toList →
      (p.table.call options.maxDepth budget active depth p.table.whitespace s).value = none := by
    intro budget active depth s hs
    rw [hwhitespace]
    cases he : p.table.entry? options.whitespaceRule with
    | none => rw [Table.call_undeclared he]
    | some e =>
      exact Table.call_value_of_asksNothing he (Table.asksNothing_of_atomic htable he hatomic) (hnone s hs) _ _ _
  have hparser : p = ⟨p.table, options⟩ := by rw [← hoptions]
  rw [hparser]
  exact parse_spaced hcalls _ target

/-- A number and a semicolon, with blanks between. -/
def valueRules : List Rule :=
  [{ name := "Value", alternatives := [[.ofText "Number", .ofText "';'"]], implicitWhitespace := some true },
    { name := "Number", alternatives := [[.ofText "'1'"]] },
    { name := "WS", alternatives := [[.ofText "' '"]] }]

/-- Without a blank between them, the number and the semicolon are read alike. -/
theorem valueRules_parse : ∃ p p', Parser.build valueRules {} = .ok p ∧
    Parser.build (valueRules.map (Rule.spaced none)) {} = .ok p' ∧
    p'.parse "1;" none = p.parse "1;" none := by
  have hordered : Table.WellOrdered ["Value"] (valueRules.map (Rule.settled "WS")) "WS" := by
    decide +kernel
  have hbuild : Parser.build valueRules {} = .ok ⟨.ofRules valueRules "WS", {}⟩ :=
    build_eq_ok_iff.2 ⟨hordered.build, rfl⟩
  have hatomic : ∀ r ∈ valueRules, r.name = "WS" → r.recoverTo = none ∧
      ∀ alt ∈ r.alternatives, ∀ s ∈ alt, s.needs? = none := by decide +kernel
  have hnone : ∀ s ∈ "1;".toList.tails,
      ((Table.ofRules valueRules "WS").matchRule none "WS" s).value.isNone = true := by decide +kernel
  have hflag : (none : Option Bool) ≠ some true := nofun
  obtain ⟨p', hbuild', hparse⟩ := spaced_parse hbuild hatomic hflag
  refine ⟨_, p', hbuild, hbuild', hparse "1;" (fun s hs => ?_) none⟩
  exact Option.isNone_iff_eq_none.1 (hnone s ((List.mem_tails _ _).2 hs))

end Parser

end Grammarian
