import Grammarian.Proofs.Parse.Guard
import Grammarian.Proofs.Parse.Phases

/-!
# Reading by steps

Matching without the guard, told by what it comes to: `Table.Ends`. For rules that neither skip white space
nor recover nor commit, the phases of an alternative are read one after another, each from where the one
before it has come to. The rules of reading are those of the steps `Passes` and `Fails`; `Ends.of_chooses`
and `Ends.of_rejects` turn them into calls.
-/

namespace Grammarian

namespace Plan

variable {α β : Type} {answers : String → List Char → Option Match → Prop}

/-- With these answers, the plan may come to a value. -/
def ComesTo (answers : String → List Char → Option Match → Prop) : Plan α → α → Prop
  | done v, value => v = value
  | report _ next, value => next.ComesTo answers value
  | ask rule input next, value => ∃ answer, answers rule input answer ∧ (next answer).ComesTo answers value

/-- A plan followed by another comes to what the second comes to. -/
theorem ComesTo.bind {p : Plan α} {f : α → Plan β} {a : α} {b : β} (hp : p.ComesTo answers a)
    (hf : (f a).ComesTo answers b) : (p.bind f).ComesTo answers b := by
  induction p with
  | done v =>
    cases hp
    exact hf
  | report event next ih => exact ih hp
  | ask rule input next ih =>
    obtain ⟨answer, hanswer, hnext⟩ := hp
    exact ⟨answer, hanswer, ih answer hnext⟩

end Plan

namespace Table

variable {t : Table} {name : String} {input : List Char} {found : Option Match}

/-- Matching without the guard ends, and this is what it finds. -/
def Ends (t : Table) (name : String) (input : List Char) (found : Option Match) : Prop :=
  ∃ fuel r, t.unguarded? fuel 0 name input = some r ∧ r.value = found

/-- A run that ends within its fuel ends alike with more of it. -/
theorem unguarded?_add {fuel depth : Nat} {r : Traced (Option Match)} (more : Nat)
    (h : t.unguarded? fuel depth name input = some r) :
    t.unguarded? (fuel + more) depth name input = some r := by
  induction more with
  | zero => exact h
  | succ more ih => exact unguarded?_succ ih

/-- A plan comes to what it comes to with some fuel. -/
theorem exists_run?_of_comesTo {α : Type} {p : Plan α} {value : α} (h : p.ComesTo t.Ends value) :
    ∃ fuel r, p.run? (t.unguarded? fuel 1) = some r ∧ r.value = value := by
  induction p with
  | done v => exact ⟨0, _, rfl, h⟩
  | report event next ih =>
    obtain ⟨fuel, r, hr, hvalue⟩ := ih h
    exact ⟨fuel, ⟨r.value, event :: r.events⟩, by simp only [Plan.run?, hr], hvalue⟩
  | ask rule input next ih =>
    obtain ⟨answer, ⟨fuel, a, ha, rfl⟩, hnext⟩ := h
    obtain ⟨fuel', r, hr, hvalue⟩ := ih a.value hnext
    have ha' : t.unguarded? (fuel + fuel') 1 rule input = some (a.deepen 1) := by
      refine unguarded?_add fuel' ?_
      have hdeepen := unguarded?_deepen t fuel 0 rule input 1
      rw [ha] at hdeepen
      exact hdeepen
    have hr' : (next a.value).run? (t.unguarded? (fuel + fuel') 1) = some r := by
      refine Plan.run?_mono (fun rule s b hb => ?_) hr
      rw [Nat.add_comm]
      exact unguarded?_add fuel hb
    have hvalue' : (a.deepen 1).value = a.value := rfl
    refine ⟨fuel + fuel', ⟨r.value, (a.deepen 1).events ++ r.events⟩, ?_, hvalue⟩
    simp only [Plan.run?, ha', hvalue', hr']

/-- A rule ends in what its plan comes to. -/
theorem Ends.of_plan {e : Entry} (he : t.entry? name = some e)
    (h : (e.plan t.whitespace 0 input).ComesTo t.Ends found) : t.Ends name input found := by
  obtain ⟨fuel, r, hr, hvalue⟩ := exists_run?_of_comesTo h
  refine ⟨fuel + 1, concluded name 0 input r, ?_, ?_⟩
  · rw [unguarded?_declared he, hr]
    rfl
  · rw [concluded_value, hvalue]

/-- What matching without the guard finds is what a match begun afresh finds. -/
theorem Ends.matchRule_value (h : t.Ends name input found) :
    (t.matchRule none name input).value = found := by
  obtain ⟨fuel, r, hr, rfl⟩ := h
  have hcall : t.call none (t.budgetFor input) [] 0 name input = r :=
    call_eq_of_endless List.suffix_rfl (t.orderly_nil _) (Nat.lt_succ_self _) nofun hr
  rw [matchRule, hcall]

end Table

/-! ## Steps -/

deriving instance DecidableEq for Target

/-- What a phase does, whatever it is called in messages. -/
structure Step where
  target : Target
  repetition : Repetition
  lookahead : Lookahead
  deriving DecidableEq

namespace Step

def one (target : Target) : Step := ⟨target, .once, .none⟩

def optional (target : Target) : Step := ⟨target, .optional, .none⟩

def star (target : Target) : Step := ⟨target, .zeroOrMore, .none⟩

def plus (target : Target) : Step := ⟨target, .oneOrMore, .none⟩

end Step

def Phase.step (ph : Phase) : Step := ⟨ph.target, ph.reference.repetition, ph.reference.lookahead⟩

/-- What a hit adds to the children. -/
def Hit.adds : Hit → List Draft
  | node m => m.additions
  | nothing | text _ => []

/-- The target answers at the front of the input with a hit or none. -/
def Target.Answers (t : Table) (target : Target) (input : List Char) (got : Option Hit) : Prop :=
  (target.plan input).ComesTo t.Ends got

namespace Target

variable {t : Table} {input rest : List Char}

/-- A rule answers with what its call ends in. -/
theorem answers_rule {name : String} {found : Option Match} (h : t.Ends name input found) :
    (Target.rule name).Answers t input (found.map .node) := ⟨found, h, rfl⟩

/-- A literal in front of the input is taken. -/
theorem answers_literal {value : List Char} (hvalue : value ≠ []) (rest : List Char) :
    (Target.literal value).Answers t (value ++ rest) (some (.text rest)) := by
  have hempty : ¬ value.isEmpty = true := by simpa using hvalue
  have hprefix : value.isPrefixOf? (value ++ rest) = some rest :=
    List.isPrefixOf?_eq_some_iff_append_eq.2 rfl
  simp [Answers, plan, Plan.ComesTo, hempty, hprefix]

/-- A literal that is not in front of the input is not there. -/
theorem answers_literal_eq_none {value : List Char} (h : ¬ value <+: input) :
    (Target.literal value).Answers t input none := by
  have hprefix : value.isPrefixOf? input = none := by
    rw [← Option.not_isSome_iff_eq_none]
    intro hsome
    obtain ⟨rest, hrest⟩ := Option.isSome_iff_exists.1 hsome
    exact h ⟨rest, List.isPrefixOf?_eq_some_iff_append_eq.1 hrest⟩
  have hempty : ¬ value.isEmpty = true := by
    intro hnil
    rw [List.isEmpty_iff.1 hnil] at h
    exact h (List.nil_prefix)
  simp [Answers, plan, Plan.ComesTo, hprefix, hempty]

/-- A literal is not there where the first character is another one. -/
theorem answers_literal_none {c : Char} {value : List Char} (h : ∀ d ∈ input.head?, d ≠ c) :
    (Target.literal (c :: value)).Answers t input none := by
  refine answers_literal_eq_none ?_
  rintro ⟨rest, rfl⟩
  exact h c rfl rfl

/-- A pattern that matches is taken. -/
theorem answers_pattern {p : Pattern} (h : p.match? input = some rest) :
    (Target.pattern p).Answers t input (some (.text rest)) := by
  simp [Answers, plan, Plan.ComesTo, h]

/-- A pattern that does not match is not there. -/
theorem answers_pattern_none {p : Pattern} (h : p.match? input = none) :
    (Target.pattern p).Answers t input none := by
  simp [Answers, plan, Plan.ComesTo, h]

theorem answers_endOfInput : Target.endOfInput.Answers t [] (some (.node .endOfInput)) := rfl

end Target

/-- One round after another, the first one at the front of `input`, each further one where something is left
and the round before it consumed something. -/
inductive Target.Rounds (t : Table) (target : Target) : List Char → List Draft → List Char → Prop
  | last {input : List Char} {hit : Hit} (h : target.Answers t input (some hit))
    (hend : hit.rest input = [] ∨ input.length ≤ (hit.rest input).length ∨
      target.Answers t (hit.rest input) none) :
    Rounds t target input hit.adds (hit.rest input)
  | more {input rest : List Char} {hit : Hit} {ds : List Draft} (h : target.Answers t input (some hit))
    (hne : hit.rest input ≠ []) (hlt : (hit.rest input).length < input.length)
    (hmore : Rounds t target (hit.rest input) ds rest) :
    Rounds t target input (hit.adds ++ ds) rest

namespace Step

/-- The step succeeds at the front of `input`: it adds the drafts and leaves the rest, and the last argument
tells whether its target was there. -/
inductive Passes (t : Table) (s : Step) : List Char → List Draft → List Char → Bool → Prop
  | once {input : List Char} {hit : Hit} (hlook : s.lookahead = .none)
    (hrep : s.repetition = .once ∨ s.repetition = .optional) (h : s.target.Answers t input (some hit)) :
    Passes t s input hit.adds (hit.rest input) true
  | rounds {input rest : List Char} {ds : List Draft} (hlook : s.lookahead = .none)
    (hrep : s.repetition = .zeroOrMore ∨ s.repetition = .oneOrMore)
    (h : s.target.Rounds t input ds rest) : Passes t s input ds rest true
  | without {input : List Char} (hlook : s.lookahead = .none)
    (hrep : s.repetition = .optional ∨ s.repetition = .zeroOrMore) (h : s.target.Answers t input none) :
    Passes t s input [] input false

/-- The step needs its target, which is not there. -/
def Fails (t : Table) (s : Step) (input : List Char) : Prop :=
  s.lookahead = .none ∧ (s.repetition = .once ∨ s.repetition = .oneOrMore) ∧ s.target.Answers t input none

/-- The steps succeed one after another. -/
inductive PassAll (t : Table) : List Step → List Char → List Draft → List Char → Bool → Prop
  | nil (input : List Char) : PassAll t [] input [] input false
  | cons {s : Step} {steps : List Step} {input mid rest : List Char} {ds es : List Draft}
    {started started' : Bool} (h : s.Passes t input ds mid started)
    (hs : PassAll t steps mid es rest started') :
    PassAll t (s :: steps) input (ds ++ es) rest (started || started')

/-- One of the steps fails after those before it have succeeded. -/
inductive FailsAt (t : Table) : List Step → List Char → Prop
  | here {s : Step} {steps : List Step} {input : List Char} (h : s.Fails t input) :
    FailsAt t (s :: steps) input
  | later {s : Step} {steps : List Step} {input mid : List Char} {ds : List Draft} {started : Bool}
    (h : s.Passes t input ds mid started) (hs : FailsAt t steps mid) : FailsAt t (s :: steps) input

/-- The steps make no match: one fails, or none finds its target. -/
def Rejected (t : Table) (steps : List Step) (input : List Char) : Prop :=
  FailsAt t steps input ∨ ∃ ds rest, PassAll t steps input ds rest false

/-- The first alternative that makes a match adds these drafts and leaves this rest. -/
inductive Chooses (t : Table) : List (List Step) → List Char → List Draft → List Char → Prop
  | first {steps : List Step} {alts : List (List Step)} {input rest : List Char} {ds : List Draft}
    (h : PassAll t steps input ds rest true) : Chooses t (steps :: alts) input ds rest
  | next {steps : List Step} {alts : List (List Step)} {input rest : List Char} {ds : List Draft}
    (h : Rejected t steps input) (hs : Chooses t alts input ds rest) :
    Chooses t (steps :: alts) input ds rest

end Step

/-! ## From steps to calls -/

namespace Scene

/-- A rule that neither skips white space nor recovers. -/
structure Tight (s : Scene) : Prop where
  tight : s.rule.skipsWhitespace = false
  strict : s.rule.recoverTo = none

/-- Such a rule in which no phase commits, unless it is marked to. -/
structure Plain (s : Scene) : Prop extends Tight s where
  free : s.rule.pinAt = none

variable {t : Table} {s : Scene} {ph : Phase} {number : Nat} {g : Growth}

/-- Where no white space is skipped, a target is reached where the input stands. -/
theorem Tight.reach_comesTo (hs : s.Tight) {target : Target} {got : Option Hit}
    (h : target.Answers t g.rest got) : (s.reach target g).ComesTo t.Ends (g, got) := by
  rw [reach]
  refine h.bind ?_
  cases got with
  | some hit => rfl
  | none =>
    simp only [hs.tight, Bool.false_eq_true, if_false]
    rfl

/-- A phase without a pin commits nothing. -/
theorem Plain.commit_eq (hs : s.Plain) (hpin : ph.reference.pin = false) :
    s.commit number ph g = .done g := by
  simp [commit, pins, hpin, hs.free]

/-- A hit is added to what has grown, and the phase goes on if it repeats and something was taken. -/
theorem take_eq (hlook : ph.reference.lookahead = .none) (g : Growth) (hit : Hit) :
    take ph g hit =
      ({ g with children := g.children ++ hit.adds, rest := hit.rest g.rest, started := true },
        ph.reference.repeats && !(hit.rest g.rest).isEmpty &&
          decide ((hit.rest g.rest).length < g.rest.length)) := by
  have hpositive : ph.reference.isPositive = false := by simp [Reference.isPositive, hlook]
  cases hit with
  | nothing => simp [take, Hit.adds, Hit.rest]
  | text rest =>
    simp only [take, hpositive, Bool.false_eq_true, if_false, Hit.adds, Hit.rest, List.append_nil]
    rfl
  | node m =>
    simp only [take, hpositive, Bool.false_eq_true, if_false, Hit.adds, Hit.rest, Growth.add]
    rfl

/-- A hit, and what the phase goes on with. -/
theorem Plain.phase_of_hit (hs : s.Plain) (hlook : ph.reference.lookahead = .none)
    (hpin : ph.reference.pin = false) {again : Bool} {hit : Hit} {e : PhaseEnd}
    (h : ph.target.Answers t g.rest (some hit))
    (he : (s.afterHit number ph g hit).ComesTo t.Ends e) :
    (s.phase number ph again g).ComesTo t.Ends e := by
  have hnegative : ¬ ph.reference.isNegative = true := by simp [Reference.isNegative, hlook]
  rw [phase_eq]
  refine (hs.reach_comesTo h).bind ?_
  simp only [if_neg hnegative, hs.commit_eq hpin, Plan.bind]
  exact he

/-- A phase whose target is not there ends as a miss does. -/
theorem Tight.phase_of_miss (hs : s.Tight) (hlook : ph.reference.lookahead = .none) {again : Bool}
    {e : PhaseEnd} (h : ph.target.Answers t g.rest none)
    (he : (s.afterMiss number ph again g).ComesTo t.Ends e) :
    (s.phase number ph again g).ComesTo t.Ends e := by
  have hnegative : ¬ ph.reference.isNegative = true := by simp [Reference.isNegative, hlook]
  rw [phase_eq]
  refine (hs.reach_comesTo h).bind ?_
  simp only [if_neg hnegative]
  exact he

/-- A target that is not there ends a phase that may do without, or has matched before. -/
theorem Tight.phase_of_skip (hs : s.Tight) (hlook : ph.reference.lookahead = .none) {again : Bool}
    (h : ph.target.Answers t g.rest none)
    (hskip : ph.reference.isOptional = true ∨ ph.reference.repeats = true ∧ again = true) :
    (s.phase number ph again g).ComesTo t.Ends (.next g) := by
  have hpositive : ¬ ph.reference.isPositive = true := by simp [Reference.isPositive, hlook]
  refine hs.phase_of_miss hlook h ?_
  rw [afterMiss, if_neg hpositive]
  split
  next => rfl
  next hoptional =>
    obtain ⟨hrepeats, hagain⟩ := hskip.resolve_left hoptional
    rw [if_pos (by simp [hrepeats, hagain])]
    rfl

/-- The rounds of a phase. The induction is on the rounds, each leaving less of the input. -/
theorem Plain.phase_of_rounds (hs : s.Plain) (hlook : ph.reference.lookahead = .none)
    (hpin : ph.reference.pin = false) (hrepeats : ph.reference.repeats = true) {again : Bool}
    {input rest : List Char} {ds : List Draft} (h : ph.target.Rounds t input ds rest)
    (hinput : g.rest = input) :
    (s.phase number ph again g).ComesTo t.Ends
      (.next { g with children := g.children ++ ds, rest, started := true }) := by
  induction h generalizing g again with
  | last h hend =>
    subst hinput
    refine hs.phase_of_hit hlook hpin h ?_
    rw [afterHit, take_eq hlook]
    split
    next hmore =>
      simp only [hrepeats, Bool.true_and, Bool.and_eq_true, Bool.not_eq_true', List.isEmpty_eq_false_iff,
        decide_eq_true_eq] at hmore
      have hmiss := (hend.resolve_left hmore.1).resolve_left (Nat.not_le.2 hmore.2)
      exact hs.phase_of_skip hlook hmiss (Or.inr ⟨hrepeats, rfl⟩)
    next => rfl
  | @more input rest hit ds h hne hlt hmore ih =>
    subst hinput
    refine hs.phase_of_hit hlook hpin h ?_
    have hagain : (ph.reference.repeats && !(hit.rest g.rest).isEmpty &&
        decide ((hit.rest g.rest).length < g.rest.length)) = true := by
      simp [hrepeats, hne, hlt]
    have hnext : (s.phase number ph true
        { g with children := g.children ++ hit.adds, rest := hit.rest g.rest, started := true }).ComesTo
          t.Ends (.next { g with children := g.children ++ hit.adds ++ ds, rest, started := true }) :=
      ih rfl
    rw [afterHit, take_eq hlook, if_pos hagain, ← List.append_assoc]
    exact hnext

/-- A step that passes takes the growth on. -/
theorem Plain.phase_of_passes (hs : s.Plain) (hpin : ph.reference.pin = false) {rest : List Char}
    {ds : List Draft} {started : Bool} (h : ph.step.Passes t g.rest ds rest started) :
    (s.phase number ph false g).ComesTo t.Ends
      (.next { g with children := g.children ++ ds, rest, started := g.started || started }) := by
  cases h with
  | once hlook hrep h =>
    refine hs.phase_of_hit hlook hpin h ?_
    have hrepeats : ph.reference.repeats = false := by
      have hrep : ph.reference.repetition = .once ∨ ph.reference.repetition = .optional := hrep
      rcases hrep with hrep | hrep
      · simp [Reference.repeats, hrep]
      · simp [Reference.repeats, hrep]
    rw [afterHit, take_eq hlook, hrepeats, Bool.or_true]
    rfl
  | rounds hlook hrep h =>
    have hrepeats : ph.reference.repeats = true := by
      have hrep : ph.reference.repetition = .zeroOrMore ∨ ph.reference.repetition = .oneOrMore := hrep
      rcases hrep with hrep | hrep
      · simp [Reference.repeats, hrep]
      · simp [Reference.repeats, hrep]
    rw [Bool.or_true]
    exact hs.phase_of_rounds hlook hpin hrepeats h rfl
  | without hlook hrep h =>
    have hoptional : ph.reference.isOptional = true := by
      have hrep : ph.reference.repetition = .optional ∨ ph.reference.repetition = .zeroOrMore := hrep
      rcases hrep with hrep | hrep
      · simp [Reference.isOptional, hrep]
      · simp [Reference.isOptional, hrep]
    rw [List.append_nil, Bool.or_false]
    exact hs.phase_of_skip hlook h (Or.inl hoptional)

/-- A phase that needs its target fails without it. -/
theorem Tight.phase_of_fails (hs : s.Tight) (hg : g.pinned = false) (h : ph.step.Fails t g.rest) :
    (s.phase number ph false g).ComesTo t.Ends .fail := by
  obtain ⟨hlook, hrep, h⟩ := h
  have hlook : ph.reference.lookahead = .none := hlook
  have hrep : ph.reference.repetition = .once ∨ ph.reference.repetition = .oneOrMore := hrep
  have hpositive : ¬ ph.reference.isPositive = true := by simp [Reference.isPositive, hlook]
  have hoptional : ¬ ph.reference.isOptional = true := by
    rcases hrep with hrep | hrep
    · simp [Reference.isOptional, hrep]
    · simp [Reference.isOptional, hrep]
  have hrecover : s.recover g.rest = .done none := by simp only [recover, hs.strict]
  refine hs.phase_of_miss hlook h ?_
  rw [afterMiss, if_neg hpositive, if_neg hoptional, if_neg (by simp), if_neg (by simp [hg]), hrecover]
  rfl

/-- Phases that all pass grow what their steps hit. -/
theorem Plain.phases_of_passAll (hs : s.Plain) {phs : List Phase}
    (hpin : ∀ ph ∈ phs, ph.reference.pin = false) {steps : List Step} (hsteps : phs.map Phase.step = steps)
    {input rest : List Char} {ds : List Draft} {started : Bool}
    (h : Step.PassAll t steps input ds rest started) (hinput : g.rest = input) :
    (s.phases number g phs).ComesTo t.Ends
      (some { g with children := g.children ++ ds, rest, started := g.started || started }) := by
  induction h generalizing number g phs with
  | nil input =>
    cases List.map_eq_nil_iff.1 hsteps
    subst hinput
    simp [phases, Plan.ComesTo]
  | @cons step steps input mid rest ds es started started' h _ ih =>
    obtain ⟨ph, phs, rfl, rfl, htail⟩ := List.map_eq_cons_iff.1 hsteps
    subst hinput
    rw [List.forall_mem_cons] at hpin
    have hnext : (s.phases (number + 1)
        { g with children := g.children ++ ds, rest := mid, started := g.started || started } phs).ComesTo
          t.Ends (some { g with
            children := g.children ++ ds ++ es, rest, started := g.started || started || started' }) :=
      ih hpin.2 htail rfl
    refine (hs.phase_of_passes hpin.1 h).bind ?_
    rw [← List.append_assoc, ← Bool.or_assoc]
    exact hnext

/-- Phases one of which fails come to nothing. -/
theorem Plain.phases_of_failsAt (hs : s.Plain) {phs : List Phase}
    (hpin : ∀ ph ∈ phs, ph.reference.pin = false) {steps : List Step} (hsteps : phs.map Phase.step = steps)
    {input : List Char} (h : Step.FailsAt t steps input) (hinput : g.rest = input) (hg : g.pinned = false) :
    (s.phases number g phs).ComesTo t.Ends none := by
  induction h generalizing number g phs with
  | here h =>
    obtain ⟨ph, phs, rfl, rfl, -⟩ := List.map_eq_cons_iff.1 hsteps
    subst hinput
    exact (hs.phase_of_fails hg h).bind rfl
  | later h _ ih =>
    obtain ⟨ph, phs, rfl, rfl, htail⟩ := List.map_eq_cons_iff.1 hsteps
    subst hinput
    rw [List.forall_mem_cons] at hpin
    refine (hs.phase_of_passes hpin.1 h).bind ?_
    exact ih hpin.2 htail rfl hg

/-- A rejected alternative comes to nothing. -/
theorem Plain.alternative_of_rejected (hs : s.Plain) {phs : List Phase}
    (hpin : ∀ ph ∈ phs, ph.reference.pin = false) {input : List Char}
    (h : Step.Rejected t (phs.map Phase.step) input) :
    (s.alternative input phs).ComesTo t.Ends none := by
  rcases h with h | ⟨ds, rest, h⟩
  · exact (hs.phases_of_failsAt (g := { rest := input }) hpin rfl h rfl rfl).bind rfl
  · exact (hs.phases_of_passAll (g := { rest := input }) hpin rfl h rfl).bind rfl

/-- Alternatives that are all rejected come to nothing. -/
theorem Plain.alternatives_of_rejected (hs : s.Plain) {alts : List (List Phase)}
    (hpin : ∀ phs ∈ alts, ∀ ph ∈ phs, ph.reference.pin = false) {input : List Char}
    (h : ∀ phs ∈ alts, Step.Rejected t (phs.map Phase.step) input) :
    (s.alternatives input alts).ComesTo t.Ends none := by
  induction alts with
  | nil => rfl
  | cons phs alts ih =>
    rw [List.forall_mem_cons] at hpin h
    exact (hs.alternative_of_rejected hpin.1 h.1).bind (ih hpin.2 h.2)

/-- Of alternatives the chosen one is grown. -/
theorem Plain.alternatives_of_chooses (hs : s.Plain) {alts : List (List Phase)}
    (hpin : ∀ phs ∈ alts, ∀ ph ∈ phs, ph.reference.pin = false) {steps : List (List Step)}
    (hsteps : alts.map (·.map Phase.step) = steps) {input rest : List Char} {ds : List Draft}
    (h : Step.Chooses t steps input ds rest) :
    (s.alternatives input alts).ComesTo t.Ends
      (some ⟨⟨s.rule.name, none, input.length, rest.length, ds⟩, s.rule.fragment, rest⟩) := by
  induction h generalizing alts with
  | first h =>
    obtain ⟨phs, alts, rfl, rfl, -⟩ := List.map_eq_cons_iff.1 hsteps
    rw [List.forall_mem_cons] at hpin
    refine Plan.ComesTo.bind (a := some _) ?_ rfl
    exact (hs.phases_of_passAll (g := { rest := _ }) hpin.1 rfl h rfl).bind rfl
  | next h _ ih =>
    obtain ⟨phs, alts, rfl, rfl, htail⟩ := List.map_eq_cons_iff.1 hsteps
    rw [List.forall_mem_cons] at hpin
    exact (hs.alternative_of_rejected hpin.1 h).bind (ih hpin.2 htail)

end Scene

namespace Table

variable {t : Table} {name : String} {e : Entry} {input rest : List Char} {ds : List Draft}

def Entry.steps (e : Entry) : List (List Step) := e.alternatives.map (·.map Phase.step)

/-- A rule that is read by steps: it neither skips white space nor recovers, commits or collapses. -/
def Entry.isPlain (e : Entry) : Bool :=
  !e.rule.skipsWhitespace && e.rule.recoverTo.isNone && e.rule.pinAt.isNone
    && !e.rule.collapseSingleChild && e.alternatives.all (·.all (!·.reference.pin))

/-- The table has a plain rule of this name, a fragment or not, with these steps. -/
def declares (t : Table) (name : String) (fragment : Bool) (steps : List (List Step)) : Bool :=
  (t.entry? name).any fun e => e.isPlain && e.rule.fragment = fragment && e.steps = steps

/-- A plain entry has a plain scene. -/
theorem Entry.scene_of_isPlain (h : e.isPlain = true) (whitespace : String) (depth : Nat) :
    Scene.Plain ⟨e.rule, whitespace, depth⟩ ∧ e.rule.collapseSingleChild = false ∧
      ∀ phs ∈ e.alternatives, ∀ ph ∈ phs, ph.reference.pin = false := by
  simp only [isPlain, Bool.and_eq_true, Bool.not_eq_true', Option.isNone_iff_eq_none, List.all_eq_true] at h
  obtain ⟨⟨⟨⟨htight, hstrict⟩, hfree⟩, hwhole⟩, hmarks⟩ := h
  exact ⟨⟨⟨htight, hstrict⟩, hfree⟩, hwhole, hmarks⟩

/-- What a table declares is the plain entry with those steps. -/
theorem exists_of_declares {fragment : Bool} {steps : List (List Step)}
    (h : t.declares name fragment steps = true) :
    ∃ e, t.entry? name = some e ∧ e.isPlain = true ∧ e.rule.fragment = fragment ∧ e.steps = steps := by
  obtain ⟨e, he, h⟩ := (Option.any_eq_true _ _).1 h
  simp only [Bool.and_eq_true, decide_eq_true_eq] at h
  exact ⟨e, he, h.1.1, h.1.2, h.2⟩

/-- A call of a rule whose steps choose an alternative makes its match. -/
theorem Ends.of_chooses {fragment : Bool} {steps : List (List Step)}
    (hrule : t.declares name fragment steps = true) (h : Step.Chooses t steps input ds rest) :
    t.Ends name input (some ⟨⟨name, none, input.length, rest.length, ds⟩, fragment, rest⟩) := by
  obtain ⟨e, he, hplain, rfl, rfl⟩ := exists_of_declares hrule
  obtain ⟨hscene, hwhole, hmarks⟩ := Entry.scene_of_isPlain hplain t.whitespace 0
  have hcollapse : ∀ m, e.rule.collapse m = m := by
    intro m
    simp [Rule.collapse, hwhole]
  refine Ends.of_plan he ?_
  refine (hscene.alternatives_of_chooses hmarks rfl h).bind ?_
  simp [Plan.ComesTo, hcollapse, name_of_entry he]

/-- A call of a rule none of whose alternatives makes a match fails. -/
theorem Ends.of_rejected {fragment : Bool} {steps : List (List Step)}
    (hrule : t.declares name fragment steps = true) (h : ∀ alt ∈ steps, Step.Rejected t alt input) :
    t.Ends name input none := by
  obtain ⟨e, he, hplain, rfl, rfl⟩ := exists_of_declares hrule
  obtain ⟨hscene, -, hmarks⟩ := Entry.scene_of_isPlain hplain t.whitespace 0
  refine Ends.of_plan he ?_
  refine (hscene.alternatives_of_rejected hmarks fun phs hphs => ?_).bind rfl
  exact h _ (List.mem_map_of_mem hphs)

end Table

end Grammarian
