import Grammarian.Proofs.Parse.Language

/-!
# Reading rules that commit

A commitment matters only where a phase fails after it. An alternative whose steps all pass makes its match
whether or not it commits on the way, and one whose first step fails is left before it can commit.
-/

namespace Grammarian

namespace Scene

variable {t : Table} {s : Scene} {ph : Phase} {g : Growth} {input rest : List Char}
  {ds : List Draft} {started : Bool}

/-- A hit ends a phase that does not repeat, whether the phase commits or not. -/
theorem Tight.phase_of_once (hs : s.Tight) (hlook : ph.reference.lookahead = .none)
    (hrepeats : ph.reference.repeats = false) (number : Nat) (again : Bool) {hit : Hit}
    (h : ph.target.Answers t g.rest (some hit)) :
    ∃ pinned, (s.phase number ph again g).ComesTo t.Ends
      (.next { g with children := g.children ++ hit.adds, rest := hit.rest g.rest, started := true, pinned }) := by
  have hnegative : ¬ ph.reference.isNegative = true := by simp [Reference.isNegative, hlook]
  have hend : ∀ g' : Growth, s.afterHit number ph g' hit =
      .done (.next { g' with children := g'.children ++ hit.adds, rest := hit.rest g'.rest, started := true }) := by
    intro g'
    rw [afterHit, take_eq hlook, hrepeats]
    rfl
  refine ⟨g.pinned || (s.pins number ph && !g.pinned), ?_⟩
  rw [phase_eq]
  refine (hs.reach_comesTo h).bind ?_
  simp only [if_neg hnegative, hend, commit]
  cases s.pins number ph && !g.pinned with
  | true =>
    rw [Bool.or_true]
    rfl
  | false =>
    rw [Bool.or_false]
    rfl

/-- A step that passes without rounds takes the growth on. -/
theorem Tight.phase_of_passes (hs : s.Tight) (hrepeats : ph.reference.repeats = false)
    (h : ph.step.Passes t g.rest ds rest started) (number : Nat) :
    ∃ pinned, (s.phase number ph false g).ComesTo t.Ends
      (.next { g with children := g.children ++ ds, rest, started := g.started || started, pinned }) := by
  cases h with
  | once hlook hrep h =>
    rw [Bool.or_true]
    exact hs.phase_of_once hlook hrepeats number false h
  | rounds hlook hrep h =>
    have hrep : ph.reference.repetition = .zeroOrMore ∨ ph.reference.repetition = .oneOrMore := hrep
    simp only [Reference.repeats, Bool.or_eq_false_iff, decide_eq_false_iff_not] at hrepeats
    exact absurd hrep (not_or.2 hrepeats)
  | without hlook hrep h =>
    have hoptional : ph.reference.isOptional = true := by
      have hrep : ph.reference.repetition = .optional ∨ ph.reference.repetition = .zeroOrMore := hrep
      rcases hrep with hrep | hrep
      · simp [Reference.isOptional, hrep]
      · simp [Reference.isOptional, hrep]
    refine ⟨g.pinned, ?_⟩
    rw [List.append_nil, Bool.or_false]
    exact hs.phase_of_skip hlook h (Or.inl hoptional)

/-- Steps that all pass take the growth on. The induction is on the steps. -/
theorem Tight.phases_of_passAll (hs : s.Tight) {phs : List Phase}
    (hrepeats : ∀ ph ∈ phs, ph.reference.repeats = false) {steps : List Step} (hsteps : phs.map Phase.step = steps)
    (h : Step.PassAll t steps input ds rest started) (hinput : g.rest = input) (number : Nat) :
    ∃ pinned, (s.phases number g phs).ComesTo t.Ends
      (some { g with children := g.children ++ ds, rest, started := g.started || started, pinned }) := by
  induction h generalizing number g phs with
  | nil input =>
    cases List.map_eq_nil_iff.1 hsteps
    subst hinput
    exact ⟨g.pinned, by simp [phases, Plan.ComesTo]⟩
  | @cons step steps input mid rest ds es started started' h _ ih =>
    obtain ⟨ph, phs, rfl, rfl, htail⟩ := List.map_eq_cons_iff.1 hsteps
    subst hinput
    rw [List.forall_mem_cons] at hrepeats
    obtain ⟨committed, hfirst⟩ := hs.phase_of_passes hrepeats.1 h number
    let next : Growth :=
      { g with children := g.children ++ ds, rest := mid, started := g.started || started, pinned := committed }
    obtain ⟨pinned, hmore⟩ := ih (g := next) hrepeats.2 htail rfl (number + 1)
    refine ⟨pinned, hfirst.bind ?_⟩
    rw [← List.append_assoc, ← Bool.or_assoc]
    exact hmore

/-- An alternative is left when its first step fails. -/
theorem Tight.alternative_of_fails (hs : s.Tight) (h : ph.step.Fails t input) (phs : List Phase) :
    (s.alternative input (ph :: phs)).ComesTo t.Ends none := by
  refine Plan.ComesTo.bind (a := none) ?_ rfl
  exact (hs.phase_of_fails (g := { rest := input }) rfl h).bind rfl

/-- The first alternative that does not fail at once makes its match if all its steps pass. -/
theorem Tight.alternatives_of_passAll (hs : s.Tight) {front back : List (List Phase)} {phs : List Phase}
    (hrepeats : ∀ ph ∈ phs, ph.reference.repeats = false)
    (hfront : ∀ alt ∈ front, ∃ ph more, alt = ph :: more ∧ ph.step.Fails t input)
    (h : Step.PassAll t (phs.map Phase.step) input ds rest true) :
    (s.alternatives input (front ++ phs :: back)).ComesTo t.Ends
      (some ⟨⟨s.rule.name, none, input.length, rest.length, ds⟩, s.rule.fragment, rest⟩) := by
  induction front with
  | nil =>
    obtain ⟨pinned, hphases⟩ := hs.phases_of_passAll (g := { rest := input }) hrepeats rfl h rfl 1
    refine Plan.ComesTo.bind (a := some _) ?_ rfl
    exact hphases.bind rfl
  | cons alt front ih =>
    rw [List.forall_mem_cons] at hfront
    obtain ⟨⟨ph, more, rfl, hfails⟩, hfront⟩ := hfront
    exact (hs.alternative_of_fails hfails more).bind (ih hfront)

theorem Tight.alternatives_of_fails (hs : s.Tight) {alts : List (List Phase)}
    (h : ∀ alt ∈ alts, ∃ ph more, alt = ph :: more ∧ ph.step.Fails t input) :
    (s.alternatives input alts).ComesTo t.Ends none := by
  induction alts with
  | nil => rfl
  | cons alt alts ih =>
    rw [List.forall_mem_cons] at h
    obtain ⟨⟨ph, more, rfl, hfails⟩, h⟩ := h
    exact (hs.alternative_of_fails hfails more).bind (ih h)

end Scene

namespace Table

variable {t : Table} {name : String} {input rest : List Char} {ds : List Draft} {steps : List (List Step)}

/-- The table has a rule of this name with these steps, none of which repeats. The rule may commit. -/
def declaresCommitted (t : Table) (name : String) (steps : List (List Step)) : Bool :=
  (t.entry? name).any fun e => e.isTight && !e.rule.fragment
    && e.alternatives.all (·.all (!·.reference.repeats)) && e.steps = steps

theorem exists_of_declaresCommitted (h : t.declaresCommitted name steps = true) :
    ∃ e, t.entry? name = some e ∧ (∀ whitespace depth, Scene.Tight ⟨e.rule, whitespace, depth⟩) ∧
      e.rule.collapse = id ∧ e.rule.fragment = false ∧
      (∀ phs ∈ e.alternatives, ∀ ph ∈ phs, ph.reference.repeats = false) ∧ e.steps = steps := by
  obtain ⟨e, he, h⟩ := (Option.any_eq_true _ _).1 h
  simp only [Entry.isTight, Bool.and_eq_true, Bool.not_eq_true', Option.isNone_iff_eq_none, List.all_eq_true,
    decide_eq_true_eq] at h
  obtain ⟨⟨⟨⟨⟨htight, hstrict⟩, hwhole⟩, hfragment⟩, hrepeats⟩, hsteps⟩ := h
  refine ⟨e, he, fun _ _ => ⟨htight, hstrict⟩, ?_, hfragment, hrepeats, hsteps⟩
  funext m
  simp [Rule.collapse, hwhole]

/-- A call of a rule, the first steps of whose alternatives fail up to one whose steps all pass. -/
theorem Ends.of_passAll {front back : List (List Step)} {alt : List Step}
    (hrule : t.declaresCommitted name (front ++ alt :: back) = true)
    (hfront : ∀ a ∈ front, ∃ s more, a = s :: more ∧ s.Fails t input)
    (h : Step.PassAll t alt input ds rest true) :
    t.Ends name input (some ⟨⟨name, none, input.length, rest.length, ds⟩, false, rest⟩) := by
  obtain ⟨e, he, hscene, hcollapse, hfragment, hrepeats, hsteps⟩ := exists_of_declaresCommitted hrule
  obtain ⟨before, after, halts, hbefore, hafter⟩ := List.map_eq_append_iff.1 hsteps
  obtain ⟨phs, after, rfl, rfl, -⟩ := List.map_eq_cons_iff.1 hafter
  refine Ends.of_plan he ?_
  rw [Entry.plan, hcollapse, halts]
  refine Plan.ComesTo.bind (a := some _) ((hscene _ _).alternatives_of_passAll ?_ ?_ h) ?_
  · intro ph hph
    exact hrepeats phs (by rw [halts]; exact List.mem_append_right _ List.mem_cons_self) ph hph
  · intro alt halt
    obtain ⟨s, more, hs, hfails⟩ := hfront _ (hbefore ▸ List.mem_map_of_mem halt)
    obtain ⟨ph, phs, rfl, rfl, rfl⟩ := List.map_eq_cons_iff.1 hs
    exact ⟨ph, phs, rfl, hfails⟩
  · simp [Plan.ComesTo, hfragment, name_of_entry he]

/-- A call of a rule, the first steps of whose alternatives all fail. -/
theorem Ends.of_fails (hrule : t.declaresCommitted name steps = true)
    (h : ∀ a ∈ steps, ∃ s more, a = s :: more ∧ s.Fails t input) : t.Ends name input none := by
  obtain ⟨e, he, hscene, -, -, -, rfl⟩ := exists_of_declaresCommitted hrule
  refine Ends.of_plan he (Plan.ComesTo.bind (a := none) ((hscene _ _).alternatives_of_fails ?_) rfl)
  intro alt halt
  obtain ⟨s, more, hs, hfails⟩ := h _ (List.mem_map_of_mem halt)
  obtain ⟨ph, phs, rfl, rfl, rfl⟩ := List.map_eq_cons_iff.1 hs
  exact ⟨ph, phs, rfl, hfails⟩

end Table

end Grammarian
