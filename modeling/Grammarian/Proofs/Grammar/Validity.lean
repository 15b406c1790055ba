import Mathlib.Tactic.MkIffOfInductiveProp
import Grammarian.Proofs.Grammar.Accepted
import Grammarian.Proofs.Grammar.Circles

/-!
# Validity of rules

What makes a list of rules fit for parsing, said without the checks: `Table.Valid`. `Table.build` accepts
exactly the valid lists, with one exception. A rule may be called like the end of the input, but a reference
of that name never means it; where such a rule begins with the end of the input, it is refused all the same,
as if it began with itself.
-/

namespace Grammarian

/-- The rule that a symbol refers to, neither a literal nor the end of the input. -/
def Symbol.RefersTo (s : Symbol) (name : String) : Prop :=
  ∃ r, s = .reference r ∧ r.isLiteral = false ∧ r.name ≠ Grammarian.endOfInput ∧ r.name = name

namespace Table

/-- A rule of the list named `a` has an alternative that begins with a reference to the rule `b`, whatever
its marks. -/
def StartsWith (rules : List Rule) (a b : String) : Prop :=
  ∃ r ∈ rules, r.name = a ∧ ∃ alt ∈ r.alternatives, ∃ s ∈ alt.head?, s.RefersTo b

/-- A list of rules, the white-space rule settled, is fit for parsing. -/
structure Valid (rules : List Rule) (whitespace : String) : Prop where
  distinct : (rules.map (·.name)).Nodup
  nonempty : ∀ r ∈ rules, ∃ alt ∈ r.alternatives, alt ≠ []
  resolved : ∀ r ∈ rules, ∀ alt ∈ r.alternatives, ∀ s ∈ alt, ∀ name, s.RefersTo name →
    name ∈ rules.map (·.name)
  /-- nothing is looked ahead at more than once -/
  lookahead : ∀ r ∈ rules, ∀ alt ∈ r.alternatives, ∀ ref, .reference ref ∈ alt →
    ¬ (ref.isLookahead = true ∧ ref.repeats = true)
  recovery : ∀ r ∈ rules, ∀ target, r.recoverTo = some target → target ∈ rules.map (·.name)
  whitespace : (∃ r ∈ rules, r.implicitWhitespace = some true) → whitespace ∈ rules.map (·.name)
  /-- no rule begins with itself, be it by way of others -/
  acyclic : ∀ name, ¬ Relation.TransGen (StartsWith rules) name name
  entry : ∃ r ∈ rules, r.fragment = false ∧ isHelperName r.name = false

end Table

/-! ## Symbols and rules without problems -/

namespace Symbol

variable {s : Symbol} {name owner : String} {declared : List String}

theorem needs?_eq_some_iff : s.needs? = some name ↔ s.RefersTo name := by
  cases s with
  | literal value => simp [needs?, target, RefersTo]
  | pattern p => simp [needs?, target, RefersTo]
  | reference r =>
    by_cases hend : r.name = Grammarian.endOfInput
    · simp [needs?, target, RefersTo, hend]
    · cases hliteral : r.isLiteral with
      | true => simp [needs?, target, RefersTo, hend, hliteral]
      | false => simp [needs?, target, RefersTo, hend, hliteral]

theorem isResolvedBy_iff :
    s.isResolvedBy declared = true ↔ ∀ name, s.RefersTo name → name ∈ declared := by
  unfold isResolvedBy
  cases hneeds : s.needs? with
  | none =>
    refine iff_of_true rfl fun name hname => ?_
    rw [needs?_eq_some_iff.2 hname] at hneeds
    cases hneeds
  | some name =>
    rw [Option.all_some, List.contains_iff_mem]
    constructor
    · intro hmem name' hname'
      rw [needs?_eq_some_iff.2 hname'] at hneeds
      cases hneeds
      exact hmem
    · intro h
      exact h name (needs?_eq_some_iff.1 hneeds)

theorem problems_eq_nil_iff : s.problems declared owner = [] ↔
    s.isResolvedBy declared = true ∧ ¬ (s.asReference.isLookahead = true ∧ s.asReference.repeats = true) := by
  unfold problems
  split
  next hresolved => simp [hresolved]
  next hresolved =>
    have hneeds : s.needs? ≠ none := by
      intro hnone
      rw [isResolvedBy, hnone] at hresolved
      exact hresolved rfl
    simp [hresolved, hneeds]

/-- Only references look ahead or repeat. -/
theorem looksAheadOnce_iff : ¬ (s.asReference.isLookahead = true ∧ s.asReference.repeats = true) ↔
    ∀ ref, s = .reference ref → ¬ (ref.isLookahead = true ∧ ref.repeats = true) := by
  cases s with
  | literal value => simp [asReference, Reference.plain, Reference.isLookahead]
  | pattern p => simp [asReference, Reference.plain, Reference.isLookahead]
  | reference r => simp [asReference]

/-- The name that a symbol is compared by differs from the rule it refers to for the end of the input
only. -/
theorem ruleName?_eq_some_iff : s.ruleName? = some name ↔
    s.RefersTo name ∨ name = Grammarian.endOfInput ∧ s.ruleName? = some Grammarian.endOfInput := by
  cases s with
  | literal value => simp [ruleName?, RefersTo]
  | pattern p => simp [ruleName?, RefersTo]
  | reference r =>
    cases hliteral : r.isLiteral with
    | true => simp [ruleName?, RefersTo, hliteral]
    | false =>
      by_cases hend : r.name = Grammarian.endOfInput
      · have hnot : ¬ (reference r).RefersTo name := by
          rintro ⟨r', hr', -, hne, -⟩
          cases hr'
          exact hne hend
        simp only [ruleName?, hliteral, hend, hnot, false_or, Bool.false_eq_true, if_false, and_true,
          Option.some.injEq]
        exact eq_comm
      · simp [ruleName?, RefersTo, hliteral, hend]

end Symbol

namespace Rule

variable {r : Rule} {declared : List String} {whitespace : String}

theorem problems_eq_nil_iff : r.problems declared whitespace = [] ↔
    (∃ alt ∈ r.alternatives, alt ≠ []) ∧
    (∀ alt ∈ r.alternatives, alt.head?.bind Symbol.ruleName? ≠ some r.name) ∧
    (r.implicitWhitespace = some true → whitespace ∈ declared) ∧
    (∀ target, r.recoverTo = some target → target ∈ declared) ∧
    ∀ alt ∈ r.alternatives, ∀ s ∈ alt, s.problems declared r.name = [] := by
  simp only [problems, List.append_eq_nil_iff, and_assoc]
  refine and_congr ?_ (and_congr ?_ (and_congr ?_ (and_congr ?_ ?_)))
  · simp
  · simp
  · simp [skipsWhitespace]
  · cases r.recoverTo with
    | none => simp
    | some target => simp
  · simp only [List.flatMap_eq_nil_iff, List.mem_flatten]
    constructor
    · intro h alt halt s hs
      exact h s ⟨alt, halt, hs⟩
    · rintro h s ⟨alt, halt, hs⟩
      exact h alt halt s hs

/-- Where every symbol is resolved, a rule leads to the rules that its alternatives begin with. -/
theorem mem_firstRules_iff {name : String}
    (hresolved : ∀ alt ∈ r.alternatives, ∀ s ∈ alt, s.isResolvedBy declared = true) :
    name ∈ r.firstRules declared ↔ ∃ alt ∈ r.alternatives, ∃ s ∈ alt.head?, s.RefersTo name := by
  rw [firstRules, List.mem_filterMap]
  refine exists_congr fun alt => and_congr_right fun halt => ?_
  rw [List.filter_eq_self.2 (hresolved alt halt), Option.bind_eq_some_iff]
  exact exists_congr fun s => and_congr_right fun _ => Symbol.needs?_eq_some_iff

theorem firstRules_subset (r : Rule) (declared : List String) : r.firstRules declared ⊆ declared := by
  intro name hname
  obtain ⟨alt, -, hname⟩ := List.mem_filterMap.1 hname
  obtain ⟨s, hs, hneeds⟩ := Option.bind_eq_some_iff.1 hname
  have hresolved := (List.mem_filter.1 (List.mem_of_mem_head? hs)).2
  exact Symbol.isResolvedBy_iff.1 hresolved name (Symbol.needs?_eq_some_iff.1 hneeds)

end Rule

namespace Table

variable {rules : List Rule} {whitespace : String}

theorem problems_eq_nil_iff : problems rules whitespace = [] ↔
    (rules.map (·.name)).Nodup ∧
    (∀ r ∈ rules, r.problems (rules.map (·.name)) whitespace = []) ∧
    Cycle.all (firstRulesOf rules (rules.map (·.name))) (rules.map (·.name)) = [] ∧
    ∃ r ∈ rules, r.isEntryCandidate = true := by
  have hdups : problems rules whitespace = [] ↔
      (duplicates (rules.map (·.name))).map Problem.duplicateRule ++
        rules.flatMap (Rule.problems (rules.map (·.name)) whitespace) ++
        (Cycle.all (firstRulesOf rules (rules.map (·.name))) (rules.map (·.name))).map
          Problem.indirectLeftRecursion ++
        (if rules.any Rule.isEntryCandidate then [] else [Problem.noEntryRule]) = [] := by
    constructor
    · exact eq_nil_of_eraseDups
    · intro h
      rw [problems, h]
      rfl
  rw [hdups]
  simp only [List.append_eq_nil_iff, List.map_eq_nil_iff, List.flatMap_eq_nil_iff, and_assoc,
    duplicates_eq_nil_iff]
  refine and_congr_right fun _ => and_congr_right fun _ => and_congr_right fun _ => ?_
  rw [← List.any_eq_true]
  cases rules.any Rule.isEntryCandidate with
  | true => simp
  | false => simp

theorem firstRulesOf_subset (rules : List Rule) (declared : List String) (name : String) :
    firstRulesOf rules declared name ⊆ declared := by
  unfold firstRulesOf
  split
  · exact Rule.firstRules_subset _ declared
  · exact List.nil_subset declared

/-- Among distinct and resolved rules the names lead to one another as the rules begin with one another. -/
theorem leads_iff_startsWith (hnodup : (rules.map (·.name)).Nodup)
    (hresolved : ∀ r ∈ rules, ∀ alt ∈ r.alternatives, ∀ s ∈ alt,
      s.isResolvedBy (rules.map (·.name)) = true) (a b : String) :
    Cycle.Leads (firstRulesOf rules (rules.map (·.name))) a b ↔ StartsWith rules a b := by
  unfold Cycle.Leads firstRulesOf StartsWith
  cases hfind : rules.find? (·.name = a) with
  | none =>
    have hnone : ∀ r ∈ rules, r.name ≠ a := by simpa using hfind
    refine iff_of_false List.not_mem_nil ?_
    rintro ⟨r, hr, hname, -⟩
    exact hnone r hr hname
  | some r =>
    have hr : r ∈ rules := List.mem_of_find?_eq_some hfind
    have hname : r.name = a := by simpa using List.find?_some hfind
    dsimp only
    rw [Rule.mem_firstRules_iff (hresolved r hr)]
    constructor
    · intro halt
      exact ⟨r, hr, hname, halt⟩
    · rintro ⟨r', hr', hname', halt⟩
      rw [List.inj_on_of_nodup_map hnodup hr' hr (hname'.trans hname.symm)] at halt
      exact halt

/-- Some rule is named like the end of the input and begins with it. -/
def EndStartsItself (rules : List Rule) : Prop :=
  ∃ r ∈ rules, r.name = endOfInput ∧ ∃ alt ∈ r.alternatives, ∃ s ∈ alt.head?,
    s.ruleName? = some endOfInput

/-- The check of the first symbols of each rule finds the rules that begin with themselves, the end of the input
among them. -/
theorem not_startsItself_iff :
    (∀ r ∈ rules, ∀ alt ∈ r.alternatives, alt.head?.bind Symbol.ruleName? ≠ some r.name) ↔
      (∀ name, ¬ StartsWith rules name name) ∧ ¬ EndStartsItself rules := by
  constructor
  · intro h
    refine ⟨?_, ?_⟩
    · rintro name ⟨r, hr, rfl, alt, halt, s, hs, hrefers⟩
      refine h r hr alt halt ?_
      rw [hs]
      exact Symbol.ruleName?_eq_some_iff.2 (Or.inl hrefers)
    · rintro ⟨r, hr, hname, alt, halt, s, hs, hend⟩
      refine h r hr alt halt ?_
      rw [hs, hname]
      exact hend
  · rintro ⟨hself, hend⟩ r hr alt halt hname
    obtain ⟨s, hs, hname⟩ := Option.bind_eq_some_iff.1 hname
    rcases Symbol.ruleName?_eq_some_iff.1 hname with hrefers | ⟨heq, hname⟩
    · exact hself r.name ⟨r, hr, rfl, alt, halt, s, hs, hrefers⟩
    · exact hend ⟨r, hr, heq, alt, halt, s, hs, hname⟩

/-- Among distinct and resolved rules, none of which begins with itself, the search finds no circle just when
there is none. -/
theorem circles_eq_nil_iff (hnodup : (rules.map (·.name)).Nodup)
    (hresolved : ∀ r ∈ rules, ∀ alt ∈ r.alternatives, ∀ s ∈ alt, s.isResolvedBy (rules.map (·.name)) = true)
    (hself : ∀ name, ¬ StartsWith rules name name) :
    Cycle.all (firstRulesOf rules (rules.map (·.name))) (rules.map (·.name)) = [] ↔
      ∀ name, ¬ Relation.TransGen (StartsWith rules) name name := by
  have hleads : Cycle.Leads (firstRulesOf rules (rules.map (·.name))) = StartsWith rules := by
    funext a b
    exact propext (leads_iff_startsWith hnodup hresolved a b)
  rw [← hleads] at hself ⊢
  exact Cycle.all_eq_nil_iff_acyclic (firstRulesOf_subset rules _) hself

/-- Nothing is wrong with a list of rules just when it is valid and the end of the input does not start
itself. -/
theorem problems_eq_nil_iff_valid :
    problems rules whitespace = [] ↔ Valid rules whitespace ∧ ¬ EndStartsItself rules := by
  rw [problems_eq_nil_iff]
  simp only [Rule.problems_eq_nil_iff, Symbol.problems_eq_nil_iff, Symbol.looksAheadOnce_iff]
  constructor
  · rintro ⟨hnodup, hrules, hcircles, r, hr, hcandidate⟩
    have hresolved : ∀ r ∈ rules, ∀ alt ∈ r.alternatives, ∀ s ∈ alt,
        s.isResolvedBy (rules.map (·.name)) = true := fun r hr alt halt s hs =>
      ((hrules r hr).2.2.2.2 alt halt s hs).1
    obtain ⟨hself, hend⟩ := not_startsItself_iff.1 fun r hr => (hrules r hr).2.1
    refine ⟨⟨hnodup, fun r hr => (hrules r hr).1, ?_, ?_, fun r hr => (hrules r hr).2.2.2.1, ?_,
      (circles_eq_nil_iff hnodup hresolved hself).1 hcircles, ⟨r, hr, ?_⟩⟩, hend⟩
    · intro r hr alt halt s hs
      exact Symbol.isResolvedBy_iff.1 (hresolved r hr alt halt s hs)
    · intro r hr alt halt ref href
      exact ((hrules r hr).2.2.2.2 alt halt _ href).2 ref rfl
    · rintro ⟨r, hr, hskips⟩
      exact (hrules r hr).2.2.1 hskips
    · simpa [Rule.isEntryCandidate] using hcandidate
  · rintro ⟨hvalid, hend⟩
    have hresolved : ∀ r ∈ rules, ∀ alt ∈ r.alternatives, ∀ s ∈ alt,
        s.isResolvedBy (rules.map (·.name)) = true := fun r hr alt halt s hs =>
      Symbol.isResolvedBy_iff.2 (hvalid.resolved r hr alt halt s hs)
    have hself : ∀ name, ¬ StartsWith rules name name := fun name h => hvalid.acyclic name (.single h)
    have hfirst := not_startsItself_iff.2 ⟨hself, hend⟩
    obtain ⟨r, hr, hfragment, hhelper⟩ := hvalid.entry
    refine ⟨hvalid.distinct, fun r hr => ⟨hvalid.nonempty r hr, hfirst r hr, ?_, hvalid.recovery r hr, ?_⟩,
      (circles_eq_nil_iff hvalid.distinct hresolved hself).2 hvalid.acyclic, ⟨r, hr, ?_⟩⟩
    · intro hskips
      exact hvalid.whitespace ⟨r, hr, hskips⟩
    · intro alt halt s hs
      refine ⟨hresolved r hr alt halt s hs, fun ref href => ?_⟩
      exact hvalid.lookahead r hr alt halt ref (href ▸ hs)
    · simp [Rule.isEntryCandidate, hfragment, hhelper]

/-- Where the rules that rules begin with have a lower rank, no rule begins with itself. -/
theorem acyclic_of_rank {rules : List Rule} (rank : String → Nat)
    (h : ∀ r ∈ rules, ∀ alt ∈ r.alternatives, ∀ name ∈ alt.head?.bind Symbol.ruleName?, rank name < rank r.name)
    (name : String) : ¬ Relation.TransGen (StartsWith rules) name name := by
  have hstep : ∀ a b, StartsWith rules a b → rank b < rank a := by
    rintro a b ⟨r, hr, rfl, alt, halt, s, hs, hrefers⟩
    refine h r hr alt halt b (Option.mem_def.2 ?_)
    rw [Option.mem_def.1 hs]
    exact Symbol.ruleName?_eq_some_iff.2 (Or.inl hrefers)
  have hway : ∀ a b, Relation.TransGen (StartsWith rules) a b → rank b < rank a := by
    intro a b hab
    induction hab with
    | single hab => exact hstep _ _ hab
    | tail _ hbc ih => exact (hstep _ _ hbc).trans ih
  exact fun hself => (Nat.lt_irrefl _) (hway name name hself)

/-- **What is accepted.** A list of rules is accepted just when it is valid, once the white-space rule is
settled, and no rule named like the end of the input begins with it. The table then keeps the rules as they
are and in order, but for the white-space rule, which never skips white space. -/
theorem build_ok_iff_valid (rules : List Rule) (whitespace : String) :
    ((∃ t, build rules whitespace = .ok t) ↔
      Valid (rules.map (Rule.settled whitespace)) whitespace ∧
        ¬ EndStartsItself (rules.map (Rule.settled whitespace))) ∧
    ∀ t, build rules whitespace = .ok t → t.rules = rules.map (Rule.settled whitespace) := by
  constructor
  · rw [← problems_eq_nil_iff_valid]
    constructor
    · rintro ⟨t, h⟩
      exact (build_eq_ok_iff.1 h).1
    · intro h
      exact ⟨_, build_eq_ok_iff.2 ⟨h, rfl⟩⟩
  · intro t h
    rw [(build_eq_ok_iff.1 h).2, rules_ofRules]

/-- Conditions under which rules are accepted, all of them decidable. `order` names the rules that begin with
another one, each before those it begins with. -/
@[mk_iff]
structure WellOrdered (order : List String) (rules : List Rule) (whitespace : String) : Prop where
  distinct : (rules.map (·.name)).Nodup
  nonempty : ∀ r ∈ rules, ∃ alt ∈ r.alternatives, alt ≠ []
  resolved : ∀ r ∈ rules, ∀ alt ∈ r.alternatives, ∀ s ∈ alt, s.isResolvedBy (rules.map (·.name)) = true
  lookahead : ∀ r ∈ rules, ∀ alt ∈ r.alternatives, ∀ s ∈ alt,
    ¬ (s.asReference.isLookahead = true ∧ s.asReference.repeats = true)
  recovery : ∀ r ∈ rules, ∀ target ∈ r.recoverTo.toList, target ∈ rules.map (·.name)
  whitespace : (∃ r ∈ rules, r.implicitWhitespace = some true) → whitespace ∈ rules.map (·.name)
  ordered : ∀ r ∈ rules, ∀ alt ∈ r.alternatives, ∀ name ∈ (alt.head?.bind Symbol.ruleName?).toList,
    order.idxOf r.name < order.idxOf name
  noEnd : ∀ r ∈ rules, r.name ≠ endOfInput
  entry : ∃ r ∈ rules, r.fragment = false ∧ isHelperName r.name = false

instance WellOrdered.decidable (order : List String) (rules : List Rule) (whitespace : String) :
    Decidable (WellOrdered order rules whitespace) :=
  decidable_of_iff _ (wellOrdered_iff order rules whitespace).symm

theorem WellOrdered.valid {order : List String} (h : WellOrdered order rules whitespace) :
    Valid rules whitespace where
  distinct := h.distinct
  nonempty := h.nonempty
  resolved r hr alt halt s hs := Symbol.isResolvedBy_iff.1 (h.resolved r hr alt halt s hs)
  lookahead r hr alt halt _ href := h.lookahead r hr alt halt _ href
  recovery r hr target htarget := h.recovery r hr target (Option.mem_toList.2 htarget)
  whitespace := h.whitespace
  acyclic := by
    refine acyclic_of_rank (fun name => order.length - order.idxOf name) fun r hr alt halt name hname => ?_
    have hlt := h.ordered r hr alt halt name (Option.mem_toList.2 hname)
    have hle : order.idxOf name ≤ order.length := List.idxOf_le_length
    exact (by omega : order.length - order.idxOf name < order.length - order.idxOf r.name)
  entry := h.entry

theorem WellOrdered.build {order : List String}
    (h : WellOrdered order (rules.map (Rule.settled whitespace)) whitespace) :
    build rules whitespace = .ok (ofRules rules whitespace) := by
  refine build_eq_ok_iff.2 ⟨problems_eq_nil_iff_valid.2 ⟨h.valid, ?_⟩, rfl⟩
  rintro ⟨r, hr, hname, -⟩
  exact h.noEnd r hr hname

/-- A rule named like the end of the input that begins with the end of the input, and so not with itself. -/
def endRule : Rule :=
  { name := "EOF", alternatives := [[.reference (.plain "EOF"), .literal "x"]] }

theorem valid_endRule_refused :
    Valid ([endRule].map (Rule.settled "WS")) "WS" ∧ ¬ ∃ t, build [endRule] "WS" = .ok t := by
  have hsettled : [endRule].map (Rule.settled "WS") = [endRule] := by decide
  have hrefers : ∀ r ∈ [endRule], ∀ alt ∈ r.alternatives, ∀ s ∈ alt, ∀ name, ¬ s.RefersTo name := by
    simp [endRule, Symbol.RefersTo, Reference.plain, endOfInput]
  constructor
  · rw [hsettled]
    refine ⟨by decide, by decide, ?_, ?_, by simp [endRule], by simp [endRule], ?_, by decide⟩
    · intro r hr alt halt s hs name hname
      exact absurd hname (hrefers r hr alt halt s hs name)
    · simp [endRule, Reference.plain, Reference.isLookahead]
    · intro name hway
      obtain ⟨b, ⟨r, hr, -, alt, halt, s, hs, hname⟩, -⟩ := Relation.TransGen.head'_iff.1 hway
      exact hrefers r hr alt halt s (List.mem_of_mem_head? hs) b hname
  · rintro ⟨t, h⟩
    have hnil := (build_eq_ok_iff.1 h).1
    rw [hsettled, problems_eq_nil_iff_valid] at hnil
    exact hnil.2 ⟨endRule, List.mem_singleton_self _, rfl, _, List.mem_singleton_self _, _, rfl, rfl⟩

end Table

end Grammarian
