import Grammarian.Proofs.Grammar.Found
import Grammarian.Proofs.Grammar.Validity

/-!
# The faults that are reported

Where `Table.build` refuses a list of rules it lists what is wrong with it. `Problem.Holds` says what each fault
means for the rules as they are written, and `Table.Exact` how the list relates to that: no fault is listed
twice, and one other than a circle is listed just when it is there. There is one exception, a look-ahead that
repeats and needs a rule that nobody declares: the missing rule is listed, the look-ahead is not.

For the circles the symbols that need an undeclared rule are left out first, so a rule may go on to what stands
behind one. Every circle that is listed is one of two or more rules without repetition, every rule on such a
circle is in one that is listed, and no two have the same rules.
-/

namespace Grammarian

/-! ## What the faults mean -/

/-- The symbol refers to a rule that nobody declares. -/
def Symbol.Undeclared (declared : List String) (s : Symbol) : Prop :=
  ∃ name, s.RefersTo name ∧ name ∉ declared

namespace Table

/-- In an alternative of the rule named `a`, the first of that name, a reference to the rule `b` stands behind the
symbols of `front`. -/
def NamesBehind (rules : List Rule) (front : List Symbol) (a b : String) : Prop :=
  ∃ r, rules.find? (·.name = a) = some r ∧
    ∃ s back, front ++ s :: back ∈ r.alternatives ∧ s.RefersTo b

/-- The rule `a` goes on to the declared rule `b` before it matches anything else, symbols without meaning left
out. -/
def LeadsOn (rules : List Rule) (a b : String) : Prop :=
  b ∈ rules.map (·.name) ∧
    ∃ front, (∀ s ∈ front, s.Undeclared (rules.map (·.name))) ∧ NamesBehind rules front a b

/-- A circle of rules, each of which leads on to the next and the last one to the first. -/
structure Circular (rules : List Rule) (circle : List String) : Prop where
  two : 2 ≤ circle.length
  distinct : circle.Nodup
  chain : circle.IsChain (LeadsOn rules)
  back : ∀ head ∈ circle.head?, ∀ last ∈ circle.getLast?, LeadsOn rules last head

/-- A rule of that name looks ahead at the reference more than once. -/
structure LooksAheadAgain (rules : List Rule) (name text : String) (ref : Reference) : Prop where
  occurs : ∃ r ∈ rules, r.name = name ∧ ∃ alt ∈ r.alternatives, .reference ref ∈ alt
  lookahead : ref.isLookahead = true
  repeats : ref.repeats = true
  written : ref.text = text

end Table

namespace Problem

/-- The fault is one of the rules as they are written. -/
def Holds (rules : List Rule) (whitespace : String) : Problem → Prop
  | duplicateRule name => 2 ≤ (rules.map (·.name)).count name
  | emptyRule name => ∃ r ∈ rules, r.name = name ∧ ∀ alt ∈ r.alternatives, alt = []
  | leftRecursion name => ∃ r ∈ rules, r.name = name ∧ ∃ alt ∈ r.alternatives, ∃ s ∈ alt.head?, s.ruleName? = some name
  | indirectLeftRecursion circle => Table.Circular rules circle
  | undefinedRule name reference =>
    (∃ r ∈ rules, r.name = name ∧ ∃ alt ∈ r.alternatives, ∃ s ∈ alt, s.RefersTo reference) ∧
      reference ∉ rules.map (·.name)
  | missingWhitespaceRule name needed =>
    (∃ r ∈ rules, r.name = name ∧ r.implicitWhitespace = some true) ∧ needed = whitespace ∧
      whitespace ∉ rules.map (·.name)
  | undefinedRecoveryTarget name target =>
    (∃ r ∈ rules, r.name = name ∧ r.recoverTo = some target) ∧ target ∉ rules.map (·.name)
  | repeatedLookahead name text => ∃ ref, Table.LooksAheadAgain rules name text ref
  | noEntryRule => ∀ r ∈ rules, r.fragment = true ∨ isHelperName r.name = true

/-- The fault is a repeated look-ahead, and each symbol that it is about needs a rule that nobody declares. -/
def Overlooked (rules : List Rule) : Problem → Prop
  | repeatedLookahead name text => ∀ ref, Table.LooksAheadAgain rules name text ref →
      (Symbol.reference ref).Undeclared (rules.map (·.name))
  | _ => False

/-- The rules of a circle. -/
def circle? : Problem → Option (List String)
  | indirectLeftRecursion circle => some circle
  | _ => none

end Problem

/-- How the faults that are listed relate to the rules. -/
structure Table.Exact (rules : List Rule) (whitespace : String) (faults : List Problem) : Prop where
  once : faults.Nodup
  listed : ∀ fault, fault.circle? = none →
    (fault ∈ faults ↔ fault.Holds rules whitespace ∧ ¬ fault.Overlooked rules)
  circular : ∀ circle, .indirectLeftRecursion circle ∈ faults → Table.Circular rules circle
  /-- where a rule leads on to another, it begins with it, unless it is reported for a missing rule -/
  first : ∀ a b, Table.LeadsOn rules a b →
    Table.NamesBehind rules [] a b ∨ ∃ missing, .undefinedRule a missing ∈ faults
  /-- a circle begins at the earliest of its rules, unless another one that begins no later goes through that -/
  earliest : ∀ circle, .indirectLeftRecursion circle ∈ faults → ∀ head ∈ circle.head?, ∀ name ∈ circle,
    (rules.map (·.name)).idxOf head ≤ (rules.map (·.name)).idxOf name ∨
      ∃ other, other ≠ circle ∧ .indirectLeftRecursion other ∈ faults ∧ name ∈ other ∧
        ∀ start ∈ other.head?, (rules.map (·.name)).idxOf start ≤ (rules.map (·.name)).idxOf name
  members : ∀ circle other, .indirectLeftRecursion circle ∈ faults → .indirectLeftRecursion other ∈ faults →
    (∀ name, name ∈ circle ↔ name ∈ other) → circle = other
  /-- no rule on a circle of two or more is missed -/
  complete : ∀ a b, a ≠ b → Relation.TransGen (Table.LeadsOn rules) a b →
    Relation.TransGen (Table.LeadsOn rules) b a →
    ∃ circle, .indirectLeftRecursion circle ∈ faults ∧ a ∈ circle

/-! ## The faults of a symbol and of a rule -/

namespace Symbol

variable {s : Symbol} {declared : List String} {owner : String} {fault : Problem}

/-- A symbol is not resolved if it refers to what is not declared. -/
theorem not_isResolvedBy_iff : ¬ s.isResolvedBy declared = true ↔ s.Undeclared declared := by
  rw [isResolvedBy_iff, Undeclared]
  push Not
  rfl

theorem mem_problems_iff : fault ∈ s.problems declared owner ↔
    (∃ name, fault = .undefinedRule owner name ∧ s.RefersTo name ∧ name ∉ declared) ∨
    (∃ ref, fault = .repeatedLookahead owner ref.text ∧ s = .reference ref ∧ ¬ s.Undeclared declared ∧
      ref.isLookahead = true ∧ ref.repeats = true) := by
  unfold problems
  split
  next hresolved =>
    have hdeclared : ¬ s.Undeclared declared := fun h => not_isResolvedBy_iff.2 h hresolved
    have hmissing : ∀ name, ¬ (s.RefersTo name ∧ name ∉ declared) := fun name h => hdeclared ⟨name, h⟩
    cases s with
    | literal value => simp [asReference, Reference.plain, Reference.isLookahead, RefersTo]
    | pattern p => simp [asReference, Reference.plain, Reference.isLookahead, RefersTo]
    | reference ref =>
      simp only [asReference, Bool.and_eq_true, List.mem_ite_nil_right, List.mem_singleton, hmissing, and_false,
        exists_false, false_or, reference.injEq, hdeclared, not_false_eq_true, true_and]
      constructor
      · rintro ⟨hagain, rfl⟩
        exact ⟨ref, rfl, rfl, hagain⟩
      · rintro ⟨ref, rfl, rfl, hagain⟩
        exact ⟨hagain, rfl⟩
  next hmissing =>
    have hundeclared := not_isResolvedBy_iff.1 hmissing
    simp only [List.mem_map, Option.mem_toList, needs?_eq_some_iff, hundeclared, not_true_eq_false,
      false_and, and_false, exists_false, or_false]
    constructor
    · rintro ⟨name, hname, rfl⟩
      refine ⟨name, rfl, hname, fun hmem => hmissing (isResolvedBy_iff.2 fun other hother => ?_)⟩
      rw [← needs?_eq_some_iff] at hname hother
      cases hname.symm.trans hother
      exact hmem
    · rintro ⟨name, rfl, hname, -⟩
      exact ⟨name, hname, rfl⟩

end Symbol

namespace Rule

variable {r : Rule} {declared : List String} {whitespace name : String} {fault : Problem}

theorem mem_problems_iff : fault ∈ r.problems declared whitespace ↔
    (fault = .emptyRule r.name ∧ ∀ alt ∈ r.alternatives, alt = []) ∨
    (fault = .leftRecursion r.name ∧ ∃ alt ∈ r.alternatives, ∃ s ∈ alt.head?, s.ruleName? = some r.name) ∨
    (fault = .missingWhitespaceRule r.name whitespace ∧ r.implicitWhitespace = some true ∧ whitespace ∉ declared) ∨
    (∃ target, fault = .undefinedRecoveryTarget r.name target ∧ r.recoverTo = some target ∧ target ∉ declared) ∨
    ∃ alt ∈ r.alternatives, ∃ s ∈ alt, fault ∈ s.problems declared r.name := by
  simp only [problems, List.mem_append, or_assoc]
  refine or_congr ?_ (or_congr ?_ (or_congr ?_ (or_congr ?_ ?_)))
  · simp [and_comm]
  · simp only [List.mem_map, List.mem_filter, decide_eq_true_eq, Option.bind_eq_some_iff, Option.mem_def]
    constructor
    · rintro ⟨alt, ⟨halt, hfirst⟩, rfl⟩
      exact ⟨rfl, alt, halt, hfirst⟩
    · rintro ⟨rfl, alt, halt, hfirst⟩
      exact ⟨alt, ⟨halt, hfirst⟩, rfl⟩
  · simp [skipsWhitespace, and_comm]
  · simp only [List.mem_map, List.mem_filter, Option.mem_toList, List.contains_eq_mem, Bool.not_eq_true',
      decide_eq_false_iff_not]
    constructor
    · rintro ⟨target, htarget, rfl⟩
      exact ⟨target, rfl, htarget⟩
    · rintro ⟨target, rfl, htarget⟩
      exact ⟨target, htarget, rfl⟩
  · simp only [List.mem_flatMap, List.mem_flatten]
    constructor
    · rintro ⟨s, ⟨alt, halt, hs⟩, hfault⟩
      exact ⟨alt, halt, s, hs, hfault⟩
    · rintro ⟨alt, halt, s, hs, hfault⟩
      exact ⟨s, ⟨alt, halt, hs⟩, hfault⟩

/-- A rule leads to the first rule of an alternative that is declared and has only symbols without meaning before
it. -/
theorem mem_firstRules_iff_behind : name ∈ r.firstRules declared ↔ name ∈ declared ∧
    ∃ front, (∀ s ∈ front, s.Undeclared declared) ∧
      ∃ s back, front ++ s :: back ∈ r.alternatives ∧ s.RefersTo name := by
  simp only [firstRules, List.mem_filterMap, List.head?_filter, Option.bind_eq_some_iff,
    List.find?_eq_some_iff_append, Bool.not_eq_true']
  constructor
  · rintro ⟨alt, halt, s, ⟨hresolved, front, back, rfl, hfront⟩, hneeds⟩
    have hname := Symbol.needs?_eq_some_iff.1 hneeds
    refine ⟨Symbol.isResolvedBy_iff.1 hresolved name hname, front, fun t ht => ?_, s, back, halt, hname⟩
    exact Symbol.not_isResolvedBy_iff.1 (by simpa using hfront t ht)
  · rintro ⟨hmem, front, hfront, s, back, halt, hname⟩
    refine ⟨_, halt, s, ⟨Symbol.isResolvedBy_iff.2 fun other hother => ?_, front, back, rfl, fun t ht => ?_⟩,
      Symbol.needs?_eq_some_iff.2 hname⟩
    · rw [← Symbol.needs?_eq_some_iff] at hname hother
      cases hname.symm.trans hother
      exact hmem
    · simpa using Symbol.not_isResolvedBy_iff.2 (hfront t ht)

end Rule

/-! ## The faults of a list of rules -/

namespace Table

variable {rules : List Rule} {whitespace : String} {fault : Problem}

theorem nodup_eraseDups (faults : List Problem) : faults.eraseDups.Nodup := by
  induction faults using List.reverseRecOn with
  | nil => exact List.nodup_nil
  | append_singleton faults fault ih =>
    rw [List.eraseDups_append]
    by_cases hmem : fault ∈ faults
    · simpa [List.removeAll, hmem] using ih
    · have hfresh : ∀ other ∈ faults, other ≠ fault := fun other hother heq => hmem (heq ▸ hother)
      simpa [List.removeAll, hmem, List.nodup_append, List.eraseDups_cons] using ⟨ih, hfresh⟩

/-- The circles that a list of rules is searched for. -/
def circles (rules : List Rule) : List (List String) :=
  Cycle.all (firstRulesOf rules (rules.map (·.name))) (rules.map (·.name))

theorem mem_problems_iff : fault ∈ problems rules whitespace ↔
    (∃ name, fault = .duplicateRule name ∧ 2 ≤ (rules.map (·.name)).count name) ∨
    (∃ r ∈ rules, fault ∈ r.problems (rules.map (·.name)) whitespace) ∨
    (∃ circle, fault = .indirectLeftRecursion circle ∧ circle ∈ circles rules) ∨
    (fault = .noEntryRule ∧ ∀ r ∈ rules, r.isEntryCandidate = false) := by
  simp only [problems, List.mem_eraseDups, List.mem_append, or_assoc]
  refine or_congr ?_ (or_congr ?_ (or_congr ?_ ?_))
  · simp only [List.mem_map, mem_duplicates_iff, eq_comm, and_comm]
  · exact List.mem_flatMap
  · simp only [circles, List.mem_map, eq_comm, and_comm]
  · have hnone : (∀ r ∈ rules, r.isEntryCandidate = false) ↔ ¬ rules.any Rule.isEntryCandidate = true := by simp
    rw [hnone]
    split
    next h => simp [h]
    next h => simp [h]

/-- The cycles reported are those the search finds. -/
theorem mem_circles_iff {circle : List String} :
    .indirectLeftRecursion circle ∈ problems rules whitespace ↔ circle ∈ circles rules := by
  simp [mem_problems_iff, Rule.mem_problems_iff, Symbol.mem_problems_iff]

/-- The search goes from a rule to those that one of its alternatives starts with. -/
theorem leads_iff_leadsOn (a b : String) :
    Cycle.Leads (firstRulesOf rules (rules.map (·.name))) a b ↔ LeadsOn rules a b := by
  unfold Cycle.Leads firstRulesOf LeadsOn NamesBehind
  cases rules.find? (·.name = a) with
  | none => simp
  | some r => simp [Rule.mem_firstRules_iff_behind]

theorem leads_eq_leadsOn : Cycle.Leads (firstRulesOf rules (rules.map (·.name))) = LeadsOn rules := by
  funext a b
  exact propext (leads_iff_leadsOn a b)

/-! ### Kind by kind -/

section Kinds

variable {name reference text : String}

/-- A problem of a rule is a problem of the rules. -/
theorem mem_problems_of_rule {r : Rule} (hr : r ∈ rules) (h : fault ∈ r.problems (rules.map (·.name)) whitespace) :
    fault ∈ problems rules whitespace := mem_problems_iff.2 (.inr (.inl ⟨r, hr, h⟩))

/-- A problem of a symbol is a problem of the rules. -/
theorem mem_problems_of_symbol {r : Rule} {alt : List Symbol} {s : Symbol} (hr : r ∈ rules)
    (halt : alt ∈ r.alternatives) (hs : s ∈ alt) (h : fault ∈ s.problems (rules.map (·.name)) r.name) :
    fault ∈ problems rules whitespace :=
  mem_problems_of_rule hr (Rule.mem_problems_iff.2 (.inr (.inr (.inr (.inr ⟨alt, halt, s, hs, h⟩)))))

/-- A name is reported as declared twice if it is. -/
theorem mem_duplicateRule_iff : .duplicateRule name ∈ problems rules whitespace ↔
    (Problem.duplicateRule name).Holds rules whitespace := by
  constructor
  · intro h
    have htwice : 2 ≤ (rules.map (·.name)).count name := by
      simpa [mem_problems_iff, Rule.mem_problems_iff, Symbol.mem_problems_iff] using h
    exact htwice
  · intro htwice
    exact mem_problems_iff.2 (.inl ⟨name, rfl, htwice⟩)

/-- A rule is reported as empty if all of its alternatives are. -/
theorem mem_emptyRule_iff : .emptyRule name ∈ problems rules whitespace ↔
    (Problem.emptyRule name).Holds rules whitespace := by
  constructor
  · intro h
    obtain ⟨r, hr, rfl, hempty⟩ : ∃ r ∈ rules, name = r.name ∧ ∀ alt ∈ r.alternatives, alt = [] := by
      simpa [mem_problems_iff, Rule.mem_problems_iff, Symbol.mem_problems_iff] using h
    exact ⟨r, hr, rfl, hempty⟩
  · rintro ⟨r, hr, rfl, hempty⟩
    exact mem_problems_of_rule hr (Rule.mem_problems_iff.2 (.inl ⟨rfl, hempty⟩))

/-- A rule is reported as left-recursive if one of its alternatives starts with its own name. -/
theorem mem_leftRecursion_iff : .leftRecursion name ∈ problems rules whitespace ↔
    (Problem.leftRecursion name).Holds rules whitespace := by
  constructor
  · intro h
    obtain ⟨r, hr, rfl, hfirst⟩ : ∃ r ∈ rules, name = r.name ∧
        ∃ alt ∈ r.alternatives, ∃ s ∈ alt.head?, s.ruleName? = some r.name := by
      simpa [mem_problems_iff, Rule.mem_problems_iff, Symbol.mem_problems_iff] using h
    exact ⟨r, hr, rfl, hfirst⟩
  · rintro ⟨r, hr, rfl, hfirst⟩
    exact mem_problems_of_rule hr (Rule.mem_problems_iff.2 (.inr (.inl ⟨rfl, hfirst⟩)))

/-- A reference is reported as undefined if a symbol of its owner is one that no rule declares. -/
theorem mem_undefinedRule_iff : .undefinedRule name reference ∈ problems rules whitespace ↔
    (Problem.undefinedRule name reference).Holds rules whitespace := by
  constructor
  · intro h
    obtain ⟨r, hr, alt, halt, s, hs, rfl, hrefers, hmissing⟩ : ∃ r ∈ rules, ∃ alt ∈ r.alternatives, ∃ s ∈ alt,
        name = r.name ∧ s.RefersTo reference ∧ reference ∉ rules.map (·.name) := by
      simpa [mem_problems_iff, Rule.mem_problems_iff, Symbol.mem_problems_iff] using h
    exact ⟨⟨r, hr, rfl, alt, halt, s, hs, hrefers⟩, hmissing⟩
  · rintro ⟨⟨r, hr, rfl, alt, halt, s, hs, hrefers⟩, hmissing⟩
    exact mem_problems_of_symbol hr halt hs (Symbol.mem_problems_iff.2 (.inl ⟨reference, rfl, hrefers, hmissing⟩))

theorem mem_missingWhitespaceRule_iff : .missingWhitespaceRule name text ∈ problems rules whitespace ↔
    (Problem.missingWhitespaceRule name text).Holds rules whitespace := by
  constructor
  · intro h
    obtain ⟨r, hr, ⟨rfl, rfl⟩, hskips, hmissing⟩ : ∃ r ∈ rules, (name = r.name ∧ text = whitespace) ∧
        r.implicitWhitespace = some true ∧ whitespace ∉ rules.map (·.name) := by
      simpa [mem_problems_iff, Rule.mem_problems_iff, Symbol.mem_problems_iff] using h
    exact ⟨⟨r, hr, rfl, hskips⟩, rfl, hmissing⟩
  · rintro ⟨⟨r, hr, rfl, hskips⟩, rfl, hmissing⟩
    exact mem_problems_of_rule hr (Rule.mem_problems_iff.2 (.inr (.inr (.inl ⟨rfl, hskips, hmissing⟩))))

theorem mem_undefinedRecoveryTarget_iff : .undefinedRecoveryTarget name text ∈ problems rules whitespace ↔
    (Problem.undefinedRecoveryTarget name text).Holds rules whitespace := by
  constructor
  · intro h
    obtain ⟨r, hr, rfl, htarget, hmissing⟩ : ∃ r ∈ rules, name = r.name ∧ r.recoverTo = some text ∧
        text ∉ rules.map (·.name) := by
      simpa [mem_problems_iff, Rule.mem_problems_iff, Symbol.mem_problems_iff] using h
    exact ⟨⟨r, hr, rfl, htarget⟩, hmissing⟩
  · rintro ⟨⟨r, hr, rfl, htarget⟩, hmissing⟩
    exact mem_problems_of_rule hr (Rule.mem_problems_iff.2 (.inr (.inr (.inr (.inl ⟨text, rfl, htarget, hmissing⟩)))))

/-- A repeated look-ahead is listed unless all it may stand for is listed for a missing rule. -/
theorem mem_repeatedLookahead_iff : .repeatedLookahead name text ∈ problems rules whitespace ↔
    ∃ ref, LooksAheadAgain rules name text ref ∧ ¬ (Symbol.reference ref).Undeclared (rules.map (·.name)) := by
  constructor
  · intro h
    obtain ⟨r, hr, alt, halt, ref, hmem, ⟨rfl, rfl⟩, hdeclared, hlookahead, hrepeats⟩ : ∃ r ∈ rules,
        ∃ alt ∈ r.alternatives, ∃ ref, .reference ref ∈ alt ∧ (name = r.name ∧ text = ref.text) ∧
          ¬ (Symbol.reference ref).Undeclared (rules.map (·.name)) ∧ ref.isLookahead = true ∧ ref.repeats = true := by
      simpa [mem_problems_iff, Rule.mem_problems_iff, Symbol.mem_problems_iff] using h
    exact ⟨ref, ⟨⟨r, hr, rfl, alt, halt, hmem⟩, hlookahead, hrepeats, rfl⟩, hdeclared⟩
  · rintro ⟨ref, ⟨⟨r, hr, rfl, alt, halt, hmem⟩, hlookahead, hrepeats, rfl⟩, hdeclared⟩
    exact mem_problems_of_symbol hr halt hmem
      (Symbol.mem_problems_iff.2 (.inr ⟨ref, rfl, rfl, hdeclared, hlookahead, hrepeats⟩))

theorem mem_noEntryRule_iff : .noEntryRule ∈ problems rules whitespace ↔
    Problem.noEntryRule.Holds rules whitespace := by
  have hentry : ∀ r : Rule, r.isEntryCandidate = false ↔ r.fragment = true ∨ isHelperName r.name = true := by
    intro r
    cases hfragment : r.fragment with
    | true => simp [Rule.isEntryCandidate, hfragment]
    | false => simp [Rule.isEntryCandidate, hfragment]
  constructor
  · intro h
    have hnone : ∀ r ∈ rules, r.isEntryCandidate = false := by
      simpa [mem_problems_iff, Rule.mem_problems_iff, Symbol.mem_problems_iff] using h
    exact fun r hr => (hentry r).1 (hnone r hr)
  · intro hnone
    exact mem_problems_iff.2 (.inr (.inr (.inr ⟨rfl, fun r hr => (hentry r).2 (hnone r hr)⟩)))

end Kinds

/-- A fault other than a circle is listed just when it is there and not overlooked. -/
theorem mem_problems_iff_holds (hcircle : fault.circle? = none) :
    fault ∈ problems rules whitespace ↔ fault.Holds rules whitespace ∧ ¬ fault.Overlooked rules := by
  -- Only a repeated look-ahead can be overlooked.
  cases fault with
  | duplicateRule name => exact mem_duplicateRule_iff.trans (and_iff_left id).symm
  | emptyRule name => exact mem_emptyRule_iff.trans (and_iff_left id).symm
  | leftRecursion name => exact mem_leftRecursion_iff.trans (and_iff_left id).symm
  | indirectLeftRecursion circle => cases hcircle
  | undefinedRule name reference => exact mem_undefinedRule_iff.trans (and_iff_left id).symm
  | missingWhitespaceRule name needed => exact mem_missingWhitespaceRule_iff.trans (and_iff_left id).symm
  | undefinedRecoveryTarget name target => exact mem_undefinedRecoveryTarget_iff.trans (and_iff_left id).symm
  | repeatedLookahead name text =>
    rw [mem_repeatedLookahead_iff]
    constructor
    · rintro ⟨ref, hthere, hdeclared⟩
      exact ⟨⟨ref, hthere⟩, fun hoverlooked => hdeclared (hoverlooked ref hthere)⟩
    · rintro ⟨-, hseen⟩
      simpa [Problem.Overlooked] using hseen
  | noEntryRule => exact mem_noEntryRule_iff.trans (and_iff_left id).symm

/-- Every cycle that is reported is one. -/
theorem circular_of_mem_circles {circle : List String} (h : circle ∈ circles rules) : Circular rules circle := by
  obtain ⟨start, -, hcircle, hnodup⟩ := Cycle.exists_of_mem_all h
  refine ⟨hcircle.two, hnodup, leads_eq_leadsOn ▸ hcircle.chain, fun head hhead last hlast => ?_⟩
  rw [Option.mem_def, hcircle.head] at hhead
  cases hhead
  exact (leads_iff_leadsOn _ _).1 (hcircle.back last hlast)

/-- The rules of a circle lead to each other, by way of its end and its beginning. -/
theorem Circular.transGen {circle : List String} (h : Circular rules circle) {a b : String} (ha : a ∈ circle)
    (hb : b ∈ circle) : Relation.TransGen (LeadsOn rules) a b := by
  have hne : circle ≠ [] := List.ne_nil_of_mem ha
  have hend : Relation.ReflTransGen (LeadsOn rules) a (circle.getLast hne) := by
    obtain ⟨front, back, rfl⟩ := List.append_of_mem ha
    have hway := List.relationReflTransGen_of_exists_isChain _ h.chain.right_of_append (List.cons_ne_nil a back)
    rw [List.getLast_append_of_ne_nil hne (List.cons_ne_nil a back)]
    exact hway
  have hbegin : Relation.ReflTransGen (LeadsOn rules) (circle.head hne) b := by
    obtain ⟨front, back, rfl⟩ := List.append_of_mem hb
    have hchain := h.chain
    rw [List.append_cons] at hchain
    have hway := List.relationReflTransGen_of_exists_isChain _ hchain.left_of_append (by simp)
    rw [List.getLast_concat] at hway
    cases front with
    | nil => exact hway
    | cons => exact hway
  have hback := h.back _ (List.head?_eq_some_head hne) _ (List.getLast?_eq_some_getLast hne)
  exact (Relation.TransGen.tail' hend hback).trans_left hbegin

/-- The faults of a list of rules are exact. -/
theorem exact_problems (rules : List Rule) (whitespace : String) :
    Exact rules whitespace (problems rules whitespace) where
  once := nodup_eraseDups _
  listed _ := mem_problems_iff_holds
  circular circle h := circular_of_mem_circles (mem_circles_iff.1 h)
  first a b h := by
    obtain ⟨-, front, hfront, hbehind⟩ := h
    cases front with
    | nil => exact .inl hbehind
    | cons t front =>
      obtain ⟨missing, hmissing, hundeclared⟩ := hfront t List.mem_cons_self
      obtain ⟨r, hr, s, back, halt, -⟩ := hbehind
      refine .inr ⟨missing, (mem_problems_iff_holds rfl).2 ⟨⟨⟨r, ?_, ?_, _, halt, t, ?_, hmissing⟩, hundeclared⟩, id⟩⟩
      · exact List.mem_of_find?_eq_some hr
      · simpa using List.find?_some hr
      · exact List.mem_cons_self
  earliest circle h head hhead name hname := by
    rw [or_iff_not_imp_left]
    intro hlater
    have hcircular := circular_of_mem_circles (mem_circles_iff.1 h)
    have hmem := List.mem_of_mem_head? hhead
    have hne : name ≠ head := by
      rintro rfl
      exact hlater (Nat.le_refl _)
    obtain ⟨other, hother, hthrough, hbefore⟩ := Cycle.exists_mem_all (firstRulesOf_subset rules _) hne
      (leads_eq_leadsOn ▸ hcircular.transGen hname hmem) (leads_eq_leadsOn ▸ hcircular.transGen hmem hname)
    refine ⟨other, ?_, mem_circles_iff.2 hother, hthrough, hbefore⟩
    rintro rfl
    exact hlater (hbefore head hhead)
  members circle other h hother := Cycle.kept_eq_of_sameMembers (mem_circles_iff.1 h) (mem_circles_iff.1 hother)
  complete a b hne hto hback := by
    obtain ⟨circle, hcircle, hthrough, -⟩ := Cycle.exists_mem_all (firstRulesOf_subset rules _) hne
      (leads_eq_leadsOn ▸ hto) (leads_eq_leadsOn ▸ hback)
    exact ⟨circle, mem_circles_iff.2 hcircle, hthrough⟩

/-- Settling the white-space rule mends no fault: where there is one to settle, white space is declared. -/
theorem problems_settled (rules : List Rule) (whitespace : String) :
    problems (rules.map (Rule.settled whitespace)) whitespace = problems rules whitespace := by
  have hnames : (rules.map (Rule.settled whitespace)).map (·.name) = rules.map (·.name) := by simp
  have hrules : (rules.map (Rule.settled whitespace)).flatMap (Rule.problems (rules.map (·.name)) whitespace) =
      rules.flatMap (Rule.problems (rules.map (·.name)) whitespace) := by
    rw [List.flatMap_map]
    refine List.flatMap_congr fun r hr => ?_
    by_cases hname : r.name = whitespace
    · have hdeclared : whitespace ∈ rules.map (·.name) := hname ▸ List.mem_map_of_mem hr
      simp [Rule.problems, Rule.settled, hname, hdeclared, -List.mem_map]
    · rw [Rule.settled, if_neg hname]
  have hfirst : firstRulesOf (rules.map (Rule.settled whitespace)) = firstRulesOf rules := by
    funext declared name
    rw [firstRulesOf, firstRulesOf, List.find?_map]
    simp only [Function.comp_def, Rule.settled_name]
    cases rules.find? (·.name = name) with
    | none => rfl
    | some r => simp [Rule.firstRules]
  have hentry : (rules.map (Rule.settled whitespace)).any Rule.isEntryCandidate = rules.any Rule.isEntryCandidate := by
    have hsame : Rule.isEntryCandidate ∘ Rule.settled whitespace = Rule.isEntryCandidate := by
      funext r
      simp [Rule.isEntryCandidate]
    rw [List.any_map, hsame]
  rw [problems, problems, hnames, hrules, hfirst, hentry]

/-- A rejected table reports its problems. -/
theorem eq_problems_of_build {faults : List Problem} (h : build rules whitespace = .error faults) :
    faults = problems rules whitespace := by
  rw [build, problems_settled] at h
  split at h
  next => cases h
  next => exact (Except.error.inj h).symm

/-- **The faults that are listed are exact.** The rules of a refused list have the faults they are reported for and no
others, repeated look-aheads at missing rules apart, and each rule on a circle is reported with a circle. -/
theorem faults_exact {faults : List Problem} (h : build rules whitespace = .error faults) :
    Exact rules whitespace faults := by
  rw [eq_problems_of_build h]
  exact exact_problems rules whitespace

/-- Two circles through the first rule. -/
def overlapping : List Rule :=
  [{ name := "A", alternatives := [[.reference (.plain "B")], [.reference (.plain "C")]] },
    { name := "B", alternatives := [[.reference (.plain "A")]] },
    { name := "C", alternatives := [[.reference (.plain "A")]] }]

theorem overlapping_exact : build overlapping "WS" =
      .error [.indirectLeftRecursion ["A", "B"], .indirectLeftRecursion ["C", "A"]] ∧
    Exact overlapping "WS" [.indirectLeftRecursion ["A", "B"], .indirectLeftRecursion ["C", "A"]] :=
  ⟨by cbv, faults_exact (by cbv)⟩

/-- A repeated look-ahead at the rule `M`, which is missing. -/
def lookingForMissing : List Rule :=
  [{ name := "A", alternatives := [[.literal "a", .reference ⟨"M", .zeroOrMore, .negative, false⟩]] }]

/-- A rule behind the missing rule `M`. -/
def behindMissing : List Rule :=
  [{ name := "A", alternatives := [[.reference (.plain "M"), .reference (.plain "B")]] },
    { name := "B", alternatives := [[.reference (.plain "A")]] }]

/-- The search from `A` comes upon `B` first, so the circle through `C` is found from `C` only and begins there,
although `A` is declared before. A look-ahead at a missing rule is not reported for repeating. And `A` is said to be
on a circle with `B`, though its one alternative begins with the missing rule. -/
theorem faults_inexact :
    (build overlapping "WS" = .error [.indirectLeftRecursion ["A", "B"], .indirectLeftRecursion ["C", "A"]] ∧
      (overlapping.map (·.name)).idxOf "A" < (overlapping.map (·.name)).idxOf "C") ∧
    (build lookingForMissing "WS" = .error [.undefinedRule "A" "M"] ∧
      (Problem.repeatedLookahead "A" "!M*").Holds lookingForMissing "WS") ∧
    (build behindMissing "WS" = .error [.undefinedRule "A" "M", .indirectLeftRecursion ["A", "B"]] ∧
      ¬ NamesBehind behindMissing [] "A" "B") := by
  refine ⟨⟨by cbv, by decide⟩, ⟨by cbv, ⟨"M", .zeroOrMore, .negative, false⟩, ?_⟩, by cbv, ?_⟩
  · exact ⟨⟨_, List.mem_cons_self, rfl, _, List.mem_cons_self, by decide⟩, by decide, by decide, by decide⟩
  · rintro ⟨r, hr, s, back, halt, href⟩
    cases hr
    obtain ⟨rfl, -⟩ : s = .reference (.plain "M") ∧ back = [.reference (.plain "B")] := by simpa using halt
    obtain ⟨ref, href, -, -, hname⟩ := href
    cases href
    exact absurd hname (by decide)

end Table

end Grammarian
