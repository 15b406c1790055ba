import Grammarian.Proofs.Parse.Outcome
import Grammarian.Proofs.Parse.Reading
import Grammarian.Proofs.Tree.Outline

/-!
# The languages of rules

What a match says about its text. A language is a set of texts, each with the outlines of the nodes it has; the
phases of an alternative describe one, given those of the rules. `Table.call_keeps` says that languages that
every rule keeps to, one after the other, hold of every match without errors.
-/

namespace Grammarian

/-- Texts with the outlines of their nodes. -/
def Language := List Char → List Node → Prop

namespace Language

/-- Nothing at all. -/
def none : Language := fun _ _ => False

/-- The empty text. -/
def empty : Language := fun text ns => text = [] ∧ ns = []

def append (L L' : Language) : Language := fun text ns =>
  ∃ front back ms ks, text = front ++ back ∧ ns = ms ++ ks ∧ L front ms ∧ L' back ks

def times (L : Language) : Nat → Language
  | 0 => empty
  | k + 1 => L.append (L.times k)

end Language

/-- What a target matches, given what the rules match. -/
def Target.language (rules : String → Language) : Target → Language
  | rule name => rules name
  | literal value => fun text ns => text = value ∧ ns = []
  | pattern p => fun text ns => ns = [] ∧ ∃ rest, p.match? (text ++ rest) = some rest
  | endOfInput => Language.empty

namespace Step

/-- How often a phase matches, or how many times more when it has matched before. -/
def admits (again : Bool) (repetition : Repetition) (k : Nat) : Prop :=
  match repetition with
  | .once => k = 1
  | .optional => k ≤ 1
  | .zeroOrMore => True
  | .oneOrMore => again = true ∨ 1 ≤ k

/-- What a phase matches. What it looks ahead at is no part of that. -/
def language (rules : String → Language) (again : Bool) (s : Step) : Language :=
  if s.lookahead = .none then fun text ns =>
    ∃ k, admits again s.repetition k ∧ (s.target.language rules).times k text ns
  else .empty

/-- What phases match one after another. -/
def languageAll (rules : String → Language) : List Step → Language
  | [] => .empty
  | s :: steps => (s.language rules false).append (languageAll rules steps)

end Step

/-- The outlines of the nodes that drafts are finished as. -/
def Draft.outlines (isToken : String → Bool) (whole : List Char) (ds : List Draft) : List Node :=
  Node.outlineAll isToken (finishAll whole false ds)

section Growth

variable {isToken : String → Bool} {whole : List Char} {g g' g'' : Growth} {L L' : Language}

namespace Draft

theorem outlines_append (ds es : List Draft) :
    outlines isToken whole (ds ++ es) = outlines isToken whole ds ++ outlines isToken whole es := by
  simp [outlines, finishAll_eq, Node.outlineAll_eq_map]

theorem errorsAll_append (ds es : List Draft) :
    errorsAll whole (ds ++ es) = errorsAll whole ds ++ errorsAll whole es := by
  simp [errorsAll_eq_flatMap]

end Draft

/-- What is added on the way from one growth to another is of this language, unless there are errors. -/
def Growth.Gains (isToken : String → Bool) (whole : List Char) (g g' : Growth) (L : Language) : Prop :=
  ∃ ds, g'.children = g.children ++ ds ∧
    (g.rest <:+ whole → Draft.errorsAll whole ds = [] →
      ∃ text, g.rest = text ++ g'.rest ∧ L text (Draft.outlines isToken whole ds))

namespace Growth

theorem Gains.mono (h : g.Gains isToken whole g' L) (himp : ∀ text ns, L text ns → L' text ns) :
    g.Gains isToken whole g' L' := by
  obtain ⟨ds, hds, hgain⟩ := h
  refine ⟨ds, hds, fun hwhole herrors => ?_⟩
  obtain ⟨text, htext, hlanguage⟩ := hgain hwhole herrors
  exact ⟨text, htext, himp _ _ hlanguage⟩

/-- What is gained twice is gained in a row. -/
theorem Gains.trans (h : g.Gains isToken whole g' L) (h' : g'.Gains isToken whole g'' L') :
    g.Gains isToken whole g'' (L.append L') := by
  obtain ⟨ds, hds, hgain⟩ := h
  obtain ⟨es, hes, hgain'⟩ := h'
  refine ⟨ds ++ es, by rw [hes, hds, List.append_assoc], fun hwhole herrors => ?_⟩
  rw [Draft.errorsAll_append, List.append_eq_nil_iff] at herrors
  obtain ⟨front, hfront, hlanguage⟩ := hgain hwhole herrors.1
  have hmid : g'.rest <:+ whole := List.IsSuffix.trans ⟨front, hfront.symm⟩ hwhole
  obtain ⟨back, hback, hlanguage'⟩ := hgain' hmid herrors.2
  exact ⟨front ++ back, by rw [hfront, hback, List.append_assoc], front, back, _, _, rfl,
    Draft.outlines_append ds es, hlanguage, hlanguage'⟩

/-- A growth that cannot have been reached without errors. -/
theorem Gains.of_none (h : g'.Gains isToken whole g'' .none)
    (hfirst : g.Gains isToken whole g' L) : g.Gains isToken whole g'' L' :=
  (hfirst.trans h).mono fun _ _ ⟨_, _, _, _, _, _, _, hfalse⟩ => False.elim hfalse

/-- Nothing is gained. -/
theorem gains_empty (hchildren : g'.children = g.children) (hrest : g'.rest = g.rest) :
    g.Gains isToken whole g' .empty :=
  ⟨[], by rw [hchildren, List.append_nil], fun _ _ => ⟨[], by rw [hrest]; rfl, rfl, rfl⟩⟩

/-- From a growth with the same children and the same rest. -/
theorem Gains.of_eq (h : g'.Gains isToken whole g'' L) (hchildren : g'.children = g.children)
    (hrest : g'.rest = g.rest) : g.Gains isToken whole g'' L := by
  rw [Gains, ← hchildren, ← hrest]
  exact h

end Growth

/-- A match at the front of `input` keeps to the language, unless it has errors. -/
def Match.Keeps (isToken : String → Bool) (whole : List Char) (L : Language) (input : List Char) (m : Match) : Prop :=
  input <:+ whole → Draft.errorsAll whole m.additions = [] →
    ∃ text, input = text ++ m.rest ∧ L text (Draft.outlines isToken whole m.additions)

/-- Answers keep to the languages of the rules. -/
def Contract.keeping (isToken : String → Bool) (whole : List Char) (rules : String → Language) : Contract where
  asks _ _ := True
  answers rule input answer := ∀ m ∈ answer, m.Keeps isToken whole (rules rule) input

/-- A hit at the front of the input is of the language. -/
def Hit.Keeps (isToken : String → Bool) (whole : List Char) (L : Language) (input : List Char) (hit : Hit) : Prop :=
  input <:+ whole → Draft.errorsAll whole hit.adds = [] →
    ∃ text, input = text ++ hit.rest input ∧ L text (Draft.outlines isToken whole hit.adds)

variable {rules : String → Language}

/-- What a target hits is in its language. -/
theorem Target.plan_keeps (target : Target) (input : List Char) :
    (target.plan input).Meets (.keeping isToken whole rules)
      fun got => ∀ hit ∈ got, hit.Keeps isToken whole (target.language rules) input := by
  cases target with
  | rule name =>
    refine ⟨trivial, fun answer hanswer => ?_⟩
    rintro hit hhit
    obtain ⟨m, hm, rfl⟩ := Option.map_eq_some_iff.1 hhit
    exact hanswer m hm
  | endOfInput =>
    rintro hit hhit
    split at hhit
    next hempty =>
      obtain rfl := Option.some.inj hhit
      rw [List.isEmpty_iff.1 hempty]
      exact fun _ _ => ⟨[], rfl, rfl, rfl⟩
    next => cases hhit
  | literal value =>
    rintro hit hhit
    split at hhit
    next hempty =>
      obtain rfl := Option.some.inj hhit
      rw [List.isEmpty_iff.1 hempty]
      exact fun _ _ => ⟨[], rfl, rfl, rfl⟩
    next =>
      obtain ⟨rest, hrest, rfl⟩ := Option.map_eq_some_iff.1 hhit
      exact fun _ _ => ⟨value, (List.append_eq_of_isPrefixOf?_eq_some hrest).symm, rfl, rfl⟩
  | pattern p =>
    rintro hit hhit
    obtain ⟨rest, hrest, rfl⟩ := Option.map_eq_some_iff.1 hhit
    obtain ⟨text, htext⟩ := Pattern.match?_suffix hrest
    exact fun _ _ => ⟨text, htext.symm, rfl, rest, htext ▸ hrest⟩

/-! ## Phases -/

namespace Scene

variable {s : Scene} {ph : Phase} {number : Nat}

/-- What a phase adds is of the language; what it adds when it ends the alternative has an error. -/
def PhaseEnd.Gains (isToken : String → Bool) (whole : List Char) (g : Growth) (L : Language) : PhaseEnd → Prop
  | next g' => g.Gains isToken whole g' L
  | stop g' => g.Gains isToken whole g' .none
  | fail => True

/-- Where no white space is skipped, what is reached is in the target's language. -/
theorem Tight.reach_keeps (hs : s.Tight) (target : Target) (g : Growth) :
    (s.reach target g).Meets (.keeping isToken whole rules) fun r =>
      r.1 = g ∧ ∀ hit ∈ r.2, hit.Keeps isToken whole (target.language rules) g.rest := by
  rw [reach]
  refine (target.plan_keeps g.rest).bind fun got hgot => ?_
  cases got with
  | some hit => exact ⟨rfl, hgot⟩
  | none =>
    simp only [hs.tight, Bool.false_eq_true, if_false]
    exact ⟨rfl, hgot⟩

/-- Committing adds nothing. -/
theorem commit_keeps (number : Nat) (ph : Phase) (g : Growth) {k : Contract} :
    (s.commit number ph g).Meets k fun g' => g'.children = g.children ∧ g'.rest = g.rest := by
  unfold commit
  split
  · exact ⟨rfl, rfl⟩
  · exact ⟨rfl, rfl⟩

/-- The error of an alternative that is broken off. -/
theorem gains_breakOff (ph : Phase) (g : Growth) : g.Gains isToken whole (breakOff ph g) .none := by
  refine ⟨[.ofFault (.missing ph.reference.name) g.rest []], rfl, fun _ herrors => ?_⟩
  simp [Draft.errorsAll, Draft.errors, Draft.ofFault] at herrors

/-- A hit adds its text and nodes. -/
theorem gains_take {hit : Hit} (hlook : ph.reference.lookahead = .none) (h : hit.Keeps isToken whole L g.rest) :
    g.Gains isToken whole (take ph g hit).1 L := by
  rw [take_eq hlook]
  exact ⟨hit.adds, rfl, h⟩

/-- A look-ahead takes nothing. -/
theorem language_of_lookahead (hlook : ph.reference.lookahead ≠ .none) (again : Bool) :
    ph.step.language rules again = .empty := if_neg hlook

/-- A step takes its target as often as its repetition admits. -/
theorem language_of_none (hlook : ph.reference.lookahead = .none) (again : Bool) :
    ph.step.language rules again = fun text ns =>
      ∃ k, Step.admits again ph.reference.repetition k ∧ (ph.target.language rules).times k text ns :=
  if_pos hlook

/-- A step admits its target once. -/
theorem language_once (hlook : ph.reference.lookahead = .none) (again : Bool) {text : List Char} {ns : List Node}
    (h : ph.target.language rules text ns) : ph.step.language rules again text ns := by
  rw [language_of_none hlook]
  refine ⟨1, ?_, text, [], ns, [], by simp, by simp, h, rfl, rfl⟩
  unfold Step.admits
  split
  · rfl
  · exact le_rfl
  · trivial
  · exact .inr le_rfl

/-- A step that repeats admits its target once more. -/
theorem language_more (hlook : ph.reference.lookahead = .none) (hrepeats : ph.reference.repeats = true) (again : Bool)
    {text : List Char} {ns : List Node}
    (h : (ph.target.language rules).append (ph.step.language rules true) text ns) :
    ph.step.language rules again text ns := by
  obtain ⟨front, back, ms, ks, rfl, rfl, hfront, hback⟩ := h
  rw [language_of_none hlook] at hback ⊢
  obtain ⟨k, -, hback⟩ := hback
  refine ⟨k + 1, ?_, front, back, ms, ks, rfl, rfl, hfront, hback⟩
  simp only [Reference.repeats, Bool.or_eq_true, decide_eq_true_eq] at hrepeats
  rcases hrepeats with hrep | hrep
  · rw [hrep]
    trivial
  · rw [hrep]
    exact .inr (Nat.succ_le_succ (Nat.zero_le k))

theorem lookahead_eq_none (hnegative : ph.reference.isNegative = false)
    (hpositive : ph.reference.isPositive = false) : ph.reference.lookahead = .none := by
  cases hkind : ph.reference.lookahead with
  | none => rfl
  | positive => simp [Reference.isPositive, hkind] at hpositive
  | negative => simp [Reference.isNegative, hkind] at hnegative

/-- A hit is a match of the phase, or the first of several. -/
theorem afterHit_gains (hnegative : ph.reference.isNegative = false) {again : Bool} {hit : Hit}
    (hchildren : g'.children = g.children) (hrest : g'.rest = g.rest)
    (hhit : hit.Keeps isToken whole (ph.target.language rules) g.rest)
    (hnext : ∀ g₁ : Growth, g₁.rest.length < g.rest.length →
      (s.phase number ph true g₁).Meets (.keeping isToken whole rules)
        (PhaseEnd.Gains isToken whole g₁ (ph.step.language rules true))) :
    (s.afterHit number ph g' hit).Meets (.keeping isToken whole rules)
      (PhaseEnd.Gains isToken whole g (ph.step.language rules again)) := by
  unfold afterHit
  cases hpositive : ph.reference.isPositive with
  | false =>
    have hlook := lookahead_eq_none hnegative hpositive
    have hgain : g.Gains isToken whole (take ph g' hit).1 (ph.target.language rules) :=
      (gains_take hlook (hrest ▸ hhit)).of_eq hchildren hrest
    split
    next hmore =>
      have hlt : (take ph g' hit).1.rest.length < g.rest.length := hrest ▸ take_shortens hmore
      have hrepeats : ph.reference.repeats = true := by
        rw [take_eq hlook] at hmore
        simp only [Bool.and_eq_true] at hmore
        exact hmore.1.1
      refine (hnext _ hlt).mono fun e he => ?_
      cases e with
      | next g₁ => exact (hgain.trans he).mono fun _ _ => language_more hlook hrepeats again
      | stop g₁ => exact Growth.Gains.of_none he hgain
      | fail => trivial
    next => exact hgain.mono fun _ _ => language_once hlook again
  | true =>
    have hlook : ph.reference.lookahead ≠ .none := by
      intro hnone
      simp [Reference.isPositive, hnone] at hpositive
    have htake : (take ph g' hit).2 = false ∧ (take ph g' hit).1.children = g'.children ∧
        (take ph g' hit).1.rest = g'.rest := by
      cases hit with
      | nothing => exact ⟨rfl, rfl, rfl⟩
      | text rest => simp [take, hpositive]
      | node m => simp [take, hpositive]
    rw [if_neg (by simp [htake.1]), language_of_lookahead hlook]
    exact Growth.gains_empty (htake.2.1.trans hchildren) (htake.2.2.trans hrest)

/-- A phase whose target does not match goes on only where it may match no more. -/
theorem Tight.afterMiss_gains (hs : s.Tight) (hnegative : ph.reference.isNegative = false) (again : Bool)
    (g : Growth) : (s.afterMiss number ph again g).Meets (.keeping isToken whole rules)
      (PhaseEnd.Gains isToken whole g (ph.step.language rules again)) := by
  have hnothing : ph.reference.isPositive = false → Step.admits again ph.reference.repetition 0 →
      g.Gains isToken whole g (ph.step.language rules again) := by
    intro hpositive hadmits
    rw [language_of_none (lookahead_eq_none hnegative hpositive)]
    exact (Growth.gains_empty rfl rfl).mono fun _ _ hempty => ⟨0, hadmits, hempty⟩
  unfold afterMiss
  split
  next => trivial
  next hpositive =>
    have hpositive := Bool.eq_false_iff.2 hpositive
    split
    next hoptional =>
      refine hnothing hpositive ?_
      simp only [Reference.isOptional, Bool.or_eq_true, decide_eq_true_eq] at hoptional
      rcases hoptional with hrep | hrep
      · rw [hrep]
        exact Nat.zero_le 1
      · rw [hrep]
        trivial
    next =>
      split
      next hagain =>
        refine hnothing hpositive ?_
        simp only [Reference.repeats, Bool.and_eq_true, Bool.or_eq_true, decide_eq_true_eq] at hagain
        rcases hagain with ⟨hrep | hrep, hbefore⟩
        · rw [hrep]
          trivial
        · rw [hrep]
          exact .inl hbefore
      next =>
        split
        next => exact gains_breakOff ph g
        next =>
          have hrecover : s.recover g.rest = .done none := by simp only [recover, hs.strict]
          rw [hrecover]
          trivial

/-- A phase matches its language, however often it repeats. The induction is on the input left, which every
further round makes shorter. -/
theorem Tight.phase_gains (hs : s.Tight) (number : Nat) (ph : Phase) (again : Bool) (g : Growth) :
    (s.phase number ph again g).Meets (.keeping isToken whole rules)
      (PhaseEnd.Gains isToken whole g (ph.step.language rules again)) := by
  induction hlength : g.rest.length using Nat.strongRecOn generalizing again g with
  | ind n ih =>
    rw [phase_eq]
    refine (hs.reach_keeps ph.target g).bind ?_
    rintro ⟨g', got⟩ ⟨rfl, hgot⟩
    dsimp only at hgot hlength ⊢
    split
    next hnegative =>
      have hlook : ph.reference.lookahead ≠ .none := by
        intro hnone
        simp [Reference.isNegative, hnone] at hnegative
      rw [language_of_lookahead hlook]
      cases got with
      | some hit => trivial
      | none => exact Growth.gains_empty rfl rfl
    next hnegative =>
      have hnegative := Bool.eq_false_iff.2 hnegative
      cases got with
      | some hit =>
        refine (commit_keeps number ph g').bind ?_
        rintro g'' ⟨hchildren, hrest⟩
        exact afterHit_gains hnegative hchildren hrest (hgot hit rfl) fun g₁ hlt =>
          ih _ (hlength ▸ hlt) true g₁ rfl
      | none => exact hs.afterMiss_gains hnegative again g'

/-- The phases of an alternative match their language. -/
theorem Tight.phases_gains (hs : s.Tight) (number : Nat) (phs : List Phase) (g : Growth) :
    (s.phases number g phs).Meets (.keeping isToken whole rules) fun found =>
      ∀ g' ∈ found, g.Gains isToken whole g' (Step.languageAll rules (phs.map Phase.step)) := by
  induction phs generalizing number g with
  | nil =>
    rintro g' ⟨⟩
    exact Growth.gains_empty rfl rfl
  | cons ph phs ih =>
    refine (hs.phase_gains number ph false g).bind fun e he => ?_
    cases e with
    | next g' =>
      refine (ih (number + 1) g').mono fun found hfound g'' hg'' => ?_
      exact he.trans (hfound g'' hg'')
    | stop g' =>
      rintro g'' ⟨⟩
      exact Growth.Gains.of_none he (Growth.gains_empty rfl rfl)
    | fail => rintro g' ⟨⟩

/-- What the alternatives of a rule find is gained along one of them. -/
theorem Tight.alternatives_gains (hs : s.Tight) (input : List Char) (alts : List (List Phase)) :
    (s.alternatives input alts).Meets (.keeping isToken whole rules) fun found =>
      ∀ m ∈ found, ∃ phs ∈ alts, ∃ g : Growth, m = g.close s.rule input ∧
        Growth.Gains isToken whole { rest := input } g (Step.languageAll rules (phs.map Phase.step)) := by
  induction alts with
  | nil => rintro m ⟨⟩
  | cons phs alts ih =>
    have hone : (s.alternative input phs).Meets (.keeping isToken whole rules) fun found =>
        ∀ m ∈ found, ∃ g : Growth, m = g.close s.rule input ∧
          Growth.Gains isToken whole { rest := input } g (Step.languageAll rules (phs.map Phase.step)) := by
      refine (hs.phases_gains 1 phs { rest := input }).bind fun found hfound => ?_
      cases found with
      | none => rintro m ⟨⟩
      | some g =>
        intro m hm
        split at hm
        · exact ⟨g, (Option.some.inj hm).symm, hfound g rfl⟩
        · cases hm
    refine hone.bind fun found hfound => ?_
    cases found with
    | none =>
      refine ih.mono fun found hfound m hm => ?_
      obtain ⟨phs', hphs', hmatch⟩ := hfound m hm
      exact ⟨phs', List.mem_cons_of_mem phs hphs', hmatch⟩
    | some m =>
      rintro m' ⟨⟩
      exact ⟨phs, List.mem_cons_self, hfound m rfl⟩

end Scene

/-! ## Rules -/

namespace Table

variable {t : Table} {name : String} {e : Entry} {input : List Char}

/-- A rule that neither skips white space nor recovers nor collapses. -/
def Entry.isTight (e : Entry) : Bool :=
  !e.rule.skipsWhitespace && e.rule.recoverTo.isNone && !e.rule.collapseSingleChild

/-- The outlines that a match of a rule adds, given its text and those of its children. -/
def Entry.shown (isToken : String → Bool) (e : Entry) (text : List Char) (inner : List Node) : List Node :=
  if e.rule.fragment then inner
  else if Draft.keeps false e.rule.name then
    [if isToken e.rule.name then .token e.rule.name text else .branch e.rule.name inner]
  else []

/-- Languages for the rules of a table that every alternative keeps to. -/
structure Respects (t : Table) (isToken : String → Bool) (rules : String → Language) : Prop where
  tight : ∀ e ∈ t.entries, e.isTight = true
  alternative : ∀ {name : String} {e : Entry}, t.entry? name = some e → ∀ {alt : List Step}, alt ∈ e.steps →
    ∀ {text : List Char} {inner : List Node}, Step.languageAll rules alt text inner →
      rules name text (e.shown isToken text inner)

/-- What an entry finds is gained along one of its alternatives. -/
theorem Entry.plan_gains (he : e.isTight = true) (whitespace : String) (depth : Nat) (input : List Char) :
    (e.plan whitespace depth input).Meets (.keeping isToken whole rules) fun found =>
      ∀ m ∈ found, ∃ alt ∈ e.steps, ∃ g : Growth, m = g.close e.rule input ∧
        Growth.Gains isToken whole { rest := input } g (Step.languageAll rules alt) := by
  simp only [isTight, Bool.and_eq_true, Bool.not_eq_true', Option.isNone_iff_eq_none] at he
  obtain ⟨⟨htight, hstrict⟩, hwhole⟩ := he
  have hscene : Scene.Tight ⟨e.rule, whitespace, depth⟩ := ⟨htight, hstrict⟩
  refine (hscene.alternatives_gains input e.alternatives).bind fun found hfound m hm => ?_
  obtain ⟨m', hm', rfl⟩ := Option.map_eq_some_iff.1 hm
  obtain ⟨phs, hphs, g, rfl, hgains⟩ := hfound m' hm'
  refine ⟨_, List.mem_map_of_mem hphs, g, ?_, hgains⟩
  rw [Rule.collapse, if_neg (by simp [hwhole])]

/-- What a match adds, told by the text and the children of its growth. -/
theorem Entry.keeps_close {L : Language} {g : Growth} (hgains : Growth.Gains isToken whole { rest := input } g L) :
    (g.close e.rule input).Keeps isToken whole
      (fun text ns => ∃ inner, L text inner ∧ ns = e.shown isToken text inner) input := by
  intro hwhole herrors
  obtain ⟨ds, hds, hgain⟩ := hgains
  obtain rfl : g.children = ds := hds
  by_cases hfragment : e.rule.fragment = true
  · have hadditions : (g.close e.rule input).additions = g.children := by
      rw [Match.additions]
      exact if_pos hfragment
    rw [hadditions] at herrors ⊢
    obtain ⟨text, htext, hlanguage⟩ := hgain hwhole herrors
    exact ⟨text, htext, _, hlanguage, (if_pos hfragment).symm⟩
  · have hadditions : (g.close e.rule input).additions =
        [⟨e.rule.name, none, input.length, g.rest.length, g.children⟩] := by
      rw [Match.additions]
      exact if_neg hfragment
    rw [hadditions, Draft.errorsAll_singleton] at herrors
    rw [hadditions]
    obtain ⟨text, htext, hlanguage⟩ := hgain hwhole herrors
    obtain rfl : input = text ++ g.rest := htext
    obtain ⟨front, hfront⟩ := hwhole
    refine ⟨text, rfl, _, hlanguage, ?_⟩
    rw [Entry.shown, if_neg hfragment, Draft.outlines, Draft.finishAll]
    split
    next =>
      rw [Draft.finishAll, Draft.finish, Node.outlineAll, Node.outlineAll, Node.outline, Draft.slice_of_append hfront]
      split
      next => rfl
      next => rfl
    next => rfl

/-- **Every match keeps to the language of its rule.** -/
theorem call_keeps (h : t.Respects isToken rules) (maxDepth : Option Nat) (budget : Nat) (active : List Call)
    (depth : Nat) (name : String) (input : List Char) :
    ∀ m ∈ (t.call maxDepth budget active depth name input).value, m.Keeps isToken whole (rules name) input := by
  induction budget generalizing active depth name input with
  | zero =>
    intro m hm
    obtain ⟨e, b, -, hb, -⟩ := exists_run_of_mem_call hm
    cases hb
  | succ budget ih =>
    intro m hm
    obtain ⟨e, b, he, hb, hm⟩ := exists_run_of_mem_call hm
    cases hb
    have hplan : (e.plan t.whitespace depth input).Meets (.keeping isToken whole rules) _ :=
      Entry.plan_gains (h.tight e (List.mem_of_find?_eq_some he)) t.whitespace depth input
    obtain ⟨alt, halt, g, rfl, hgains⟩ := hplan.of_run (fun rule s _ => ih _ _ rule s) m hm
    intro hwhole herrors
    obtain ⟨text, htext, inner, hinner, hns⟩ := Entry.keeps_close hgains hwhole herrors
    exact ⟨text, htext, hns ▸ h.alternative he halt hinner⟩

end Table

/-- **The tree of a text without errors.** The text is of the language of an alternative of the rule where
parsing starts, with the outlines of the children of the root. -/
theorem Parser.parse_language {p : Parser} (h : p.table.Respects isToken rules)
    (hupper : p.options.keepUpperRules = false) {name : String} (hstart : p.table.start?.map (·.name) = some name)
    (htoken : isToken name = false) {input : String} {tree : Tree} (hparse : p.parse input none = .ok tree)
    (herrors : tree.errors = []) :
    ∃ e alt inner, p.table.entry? name = some e ∧ alt ∈ e.steps ∧
      Step.languageAll rules alt input.toList inner ∧ tree.root.outline isToken = .branch name inner := by
  obtain ⟨m, hm, rfl⟩ := exists_match_of_parse hparse
  have hname : p.startName none = name := by
    rw [startName, hstart]
    rfl
  rw [startMatch, hname] at hm
  obtain ⟨e, b, he, -, hm⟩ := Table.exists_run_of_mem_call hm
  have hplan : (e.plan p.table.whitespace 0 input.toList).Meets (.keeping isToken input.toList rules) _ :=
    Table.Entry.plan_gains (h.tight e (List.mem_of_find?_eq_some he)) p.table.whitespace 0 input.toList
  obtain ⟨alt, halt, g, rfl, ds, hds, hgain⟩ :=
    hplan.of_run (fun rule s _ => Table.call_keeps h _ _ _ _ rule s) m hm
  obtain rfl : g.children = ds := hds
  rw [Match.finish, List.append_eq_nil_iff] at herrors
  obtain ⟨hdraft, htrailing⟩ := herrors
  have hrest : g.rest = [] := by
    rw [Match.trailing] at htrailing
    split at htrailing
    next hempty => exact List.isEmpty_iff.1 hempty
    next => cases htrailing
  have hchildren : Draft.errorsAll input.toList g.children = [] := by
    simpa [Growth.close, Draft.errors] using hdraft
  obtain ⟨text, htext, hlanguage⟩ := hgain List.suffix_rfl hchildren
  obtain rfl : input.toList = text := by
    rw [hrest, List.append_nil] at htext
    exact htext
  refine ⟨e, alt, _, he, halt, hlanguage, ?_⟩
  rw [Match.finish, hupper, Growth.close, Draft.finish, Node.outline, Table.name_of_entry he, if_neg (by simp [htoken])]
  rfl

end Growth

end Grammarian
