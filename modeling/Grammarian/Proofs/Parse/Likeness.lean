import Mathlib.Data.List.Forall2
import Grammarian.Proofs.Grammar.Accepted
import Grammarian.Proofs.Parse.Frame
import Grammarian.Proofs.Parse.Language

/-!
# Rules in other words

Two tables come to the same trees when their rules correspond and the phases of corresponding rules do the same
in other words: a terminal may be named or not, and a literal be matched as a whole or character by character.
Names of rules may differ as long as no node shows them. `Table.Like.call_like` carries this from phases to calls,
and `Parser.parse_like` to parses.
-/

namespace Grammarian

/-! ## Related lists -/

theorem exists_mem_of_forall₂ {α β : Type} {R : α → β → Prop} {l : List α} {l' : List β} (h : List.Forall₂ R l l')
    {b : β} (hb : b ∈ l') : ∃ a ∈ l, R a b := by
  induction h with
  | nil => cases hb
  | @cons a b' l l' hab _ ih =>
    rcases List.mem_cons.1 hb with rfl | hb
    · exact ⟨a, List.mem_cons_self, hab⟩
    · obtain ⟨a', ha', hr⟩ := ih hb
      exact ⟨a', List.mem_cons_of_mem _ ha', hr⟩

theorem exists_head_of_forall₂ {α β : Type} {R : α → β → Prop} {l : List α} {l' : List β} (h : List.Forall₂ R l l')
    {b : β} (hb : b ∈ l'.head?) : ∃ a ∈ l.head?, R a b := by
  cases h with
  | nil => cases hb
  | cons hab _ =>
    cases hb
    exact ⟨_, rfl, hab⟩

/-! ## Hits and matches -/

/-- Hits that make the same of an alternative. -/
def Hit.Like (input : List Char) (hit hit' : Hit) : Prop :=
  hit'.adds = hit.adds ∧ hit'.rest input = hit.rest input

/-- Matches of two rules that make the same of the rules around them. -/
structure Match.Like (name name' : String) (m m' : Match) : Prop where
  rest : m'.rest = m.rest
  additions : m'.additions = m.additions
  same : name = name' → m' = m

/-- The growth after a hit that is not just looked at. -/
def Growth.after (g : Growth) (hit : Hit) : Growth :=
  { g with children := g.children ++ hit.adds, rest := hit.rest g.rest, started := true }

/-- The growth is within `n` characters of the end, and its alternative is not committed. -/
structure Growth.Within (n : Nat) (g : Growth) : Prop where
  rest : g.rest.length ≤ n
  free : g.pinned = false

/-- What has grown stays within the input after a hit. -/
theorem Growth.Within.after {n : Nat} {g : Growth} {hit : Hit} (hg : g.Within n)
    (hhit : (hit.rest g.rest).length ≤ g.rest.length) : (g.after hit).Within n :=
  ⟨hhit.trans hg.rest, hg.free⟩

/-! ## One phase -/

namespace Scene

variable {answers answers' : Answers} {s s' : Scene} {ph ph' : Phase} {number number' n : Nat} {again : Bool}
  {g : Growth}

/-- Without white space, reaching a target is trying it where the input stands. -/
theorem Plain.reach_run (hs : s.Plain) (answers : Answers) (target : Target) (g : Growth) :
    ((s.reach target g).run answers).value = (g, ((target.plan g.rest).run answers).value) := by
  rw [reach, Plan.run_bind]
  cases ((target.plan g.rest).run answers).value with
  | some hit => rfl
  | none =>
    simp only [hs.tight, Bool.false_eq_true, if_false]
    rfl

/-- How a phase ends whose target is not there. -/
theorem Plain.phase_run_none (hs : s.Plain) (hfree : g.pinned = false)
    (h : ((ph.target.plan g.rest).run answers).value = none) :
    ((s.phase number ph again g).run answers).value =
      if ph.reference.isNegative then .next g
      else if ph.reference.isPositive then .fail
      else if ph.reference.isOptional || (ph.reference.repeats && again) then .next g
      else .fail := by
  have hrecover : s.recover g.rest = .done none := by simp only [recover, hs.strict]
  rw [phase_eq, Plan.run_bind, hs.reach_run answers, h]
  dsimp only
  split
  next => rfl
  next =>
    rw [afterMiss, hrecover, hfree]
    split
    next => rfl
    next =>
      cases ph.reference.isOptional with
      | true => rfl
      | false =>
        cases (ph.reference.repeats && again) with
        | true => rfl
        | false => rfl

/-- What is looked at is not taken. -/
theorem take_of_positive (hpositive : ph.reference.isPositive = true) (g : Growth) (hit : Hit) :
    take ph g hit = ({ g with started := true }, false) := by
  cases hit with
  | nothing => rfl
  | text rest => simp only [take, hpositive, if_true]
  | node m => simp only [take, hpositive, if_true]

/-- How a phase goes on whose target is there. -/
theorem Plain.phase_run_some (hs : s.Plain) (hpin : ph.reference.pin = false) {hit : Hit}
    (h : ((ph.target.plan g.rest).run answers).value = some hit) :
    ((s.phase number ph again g).run answers).value =
      if ph.reference.isNegative then .fail
      else if ph.reference.isPositive then .next { g with started := true }
      else if ph.reference.repeats && !(hit.rest g.rest).isEmpty && (hit.rest g.rest).length < g.rest.length then
        ((s.phase number ph true (g.after hit)).run answers).value
      else .next (g.after hit) := by
  rw [phase_eq, Plan.run_bind, hs.reach_run answers, h]
  dsimp only
  split
  next => rfl
  next hnegative =>
    rw [hs.commit_eq hpin]
    cases hpositive : ph.reference.isPositive with
    | true =>
      rw [Plan.bind, afterHit, take_of_positive hpositive]
      rfl
    | false =>
      have hlook := lookahead_eq_none (Bool.eq_false_iff.2 hnegative) hpositive
      rw [Plan.bind, afterHit, take_eq hlook]
      dsimp only
      split
      next => rfl
      next => rfl

/-- Phases that do the same to a growth within `n` characters of the end, with answers to either. -/
def PhasesLike (answers answers' : Answers) (n : Nat) (phs phs' : List Phase) : Prop :=
  ∀ (s s' : Scene) (number number' : Nat) (g : Growth), s.Plain → s'.Plain → g.Within n →
    ((s'.phases number' g phs').run answers').value = ((s.phases number g phs).run answers).value ∧
      ∀ g' ∈ ((s.phases number g phs).run answers).value, g'.Within n

/-- Phases that are not committed to, and that repeat and look ahead alike, while their targets have like hits. -/
structure PhaseLike (answers answers' : Answers) (n : Nat) (ph ph' : Phase) : Prop where
  repetition : ph'.reference.repetition = ph.reference.repetition
  lookahead : ph'.reference.lookahead = ph.reference.lookahead
  pin : ph.reference.pin = false
  pin' : ph'.reference.pin = false
  target : ∀ cs, cs.length ≤ n →
    Option.Rel (Hit.Like cs) ((ph.target.plan cs).run answers).value ((ph'.target.plan cs).run answers').value
  shrink : ∀ cs, cs.length ≤ n → ∀ hit ∈ ((ph.target.plan cs).run answers).value, (hit.rest cs).length ≤ cs.length

namespace PhaseLike

/-- What counts of their marks is the same. -/
theorem marks (h : PhaseLike answers answers' n ph ph') :
    ph'.reference.isNegative = ph.reference.isNegative ∧ ph'.reference.isPositive = ph.reference.isPositive ∧
      ph'.reference.repeats = ph.reference.repeats ∧ ph'.reference.isOptional = ph.reference.isOptional := by
  simp only [Reference.isNegative, Reference.isPositive, Reference.repeats, Reference.isOptional, h.lookahead,
    h.repetition, and_self]

/-- Where one misses, so does the other. -/
theorem miss (h : PhaseLike answers answers' n ph ph') {cs : List Char} (hcs : cs.length ≤ n)
    (hgot : ((ph.target.plan cs).run answers).value = none) : ((ph'.target.plan cs).run answers').value = none := by
  have htarget := h.target cs hcs
  rw [hgot] at htarget
  cases hgot' : ((ph'.target.plan cs).run answers').value with
  | none => rfl
  | some hit =>
    rw [hgot'] at htarget
    cases htarget

/-- Where one hits, the other has a like hit. -/
theorem hit (h : PhaseLike answers answers' n ph ph') {cs : List Char} (hcs : cs.length ≤ n) {hit : Hit}
    (hgot : ((ph.target.plan cs).run answers).value = some hit) :
    ∃ hit', ((ph'.target.plan cs).run answers').value = some hit' ∧ hit.Like cs hit' := by
  have htarget := h.target cs hcs
  rw [hgot] at htarget
  cases hgot' : ((ph'.target.plan cs).run answers').value with
  | none =>
    rw [hgot'] at htarget
    cases htarget
  | some hit' =>
    rw [hgot'] at htarget
    cases htarget with
    | some hlike => exact ⟨hit', rfl, hlike⟩

/-- Such phases end alike. The induction is on the input left, which every further round makes shorter. -/
theorem phase (h : PhaseLike answers answers' n ph ph') (hs : s.Plain) (hs' : s'.Plain)
    (hg : g.Within n) (number number' : Nat) (again : Bool) :
    ((s'.phase number' ph' again g).run answers').value = ((s.phase number ph again g).run answers).value ∧
      (((s.phase number ph again g).run answers).value = .fail ∨
        ∃ g' : Growth, ((s.phase number ph again g).run answers).value = .next g' ∧ g'.Within n) := by
  obtain ⟨hnegative, hpositive, hrepeats, hoptional⟩ := h.marks
  induction hlength : g.rest.length using Nat.strongRecOn generalizing again g with
  | ind k ih =>
    cases hgot : ((ph.target.plan g.rest).run answers).value with
    | none =>
      rw [hs.phase_run_none hg.free hgot, hs'.phase_run_none hg.free (h.miss hg.rest hgot), hnegative, hpositive,
        hrepeats, hoptional]
      refine ⟨rfl, ?_⟩
      split
      · exact .inr ⟨g, rfl, hg⟩
      · split
        · exact .inl rfl
        · split
          · exact .inr ⟨g, rfl, hg⟩
          · exact .inl rfl
    | some hit =>
      obtain ⟨hit', hgot', hadds, hrest⟩ := h.hit hg.rest hgot
      have hafter : g.after hit' = g.after hit := by rw [Growth.after, Growth.after, hadds, hrest]
      have hwithin := hg.after (h.shrink g.rest hg.rest hit hgot)
      rw [hs.phase_run_some h.pin hgot, hs'.phase_run_some h.pin' hgot', hnegative, hpositive, hrepeats, hrest, hafter]
      split
      next => exact ⟨rfl, .inl rfl⟩
      next =>
        split
        next => exact ⟨rfl, .inr ⟨_, rfl, hg.rest, hg.free⟩⟩
        next =>
          split
          next hmore =>
            simp only [Bool.and_eq_true, decide_eq_true_eq] at hmore
            exact ih (g.after hit).rest.length (hlength ▸ hmore.2) hwithin true rfl
          next => exact ⟨rfl, .inr ⟨_, rfl, hwithin⟩⟩

end PhaseLike

/-! ## Phases -/

/-- Phases are run one after another. -/
theorem phases_cons_run (answers : Answers) (s : Scene) (number : Nat) (g : Growth) (ph : Phase) (phs : List Phase) :
    ((s.phases number g (ph :: phs)).run answers).value =
      match ((s.phase number ph false g).run answers).value with
      | .next g' => ((s.phases (number + 1) g' phs).run answers).value
      | .stop g' => some g'
      | .fail => none := by
  rw [phases, Plan.run_bind]
  cases ((s.phase number ph false g).run answers).value with
  | next g' => rfl
  | stop g' => rfl
  | fail => rfl

variable {phs phs' : List Phase}

theorem PhasesLike.nil : PhasesLike answers answers' n [] [] := by
  intro s s' number number' g _ _ hg
  refine ⟨rfl, ?_⟩
  rintro g' ⟨⟩
  exact hg

theorem PhasesLike.cons (h : PhaseLike answers answers' n ph ph') (hphs : PhasesLike answers answers' n phs phs') :
    PhasesLike answers answers' n (ph :: phs) (ph' :: phs') := by
  intro s s' number number' g hs hs' hg
  obtain ⟨hsame, hend⟩ := h.phase hs hs' hg number number' false
  rw [phases_cons_run, phases_cons_run, hsame]
  rcases hend with hfail | ⟨g', hnext, hg'⟩
  · rw [hfail]
    exact ⟨rfl, nofun⟩
  · rw [hnext]
    exact hphs s s' (number + 1) (number' + 1) g' hs hs' hg'

/-! ## Literals, whole and in characters -/

/-- The target is this character. -/
def IsChar (c : Char) (target : Target) : Prop :=
  ∀ (answers : Answers) (input : List Char), ((target.plan input).run answers).value =
    match input with
    | [] => none
    | d :: rest => if d = c then some (.text rest) else none

/-- How a phase ends that needs a text once. -/
theorem Plain.phase_run_text (hs : s.Plain) (hg : g.pinned = false) (hmarks : ph.reference.isPlain = true)
    {found : Option (List Char)} (h : ((ph.target.plan g.rest).run answers).value = found.map .text) :
    ((s.phase number ph false g).run answers).value =
      found.elim .fail fun rest => .next { g with rest, started := true } := by
  simp only [Reference.isPlain, Bool.and_eq_true, decide_eq_true_eq, Bool.not_eq_true'] at hmarks
  obtain ⟨⟨hrepetition, hlook⟩, hpin⟩ := hmarks
  cases found with
  | none =>
    rw [hs.phase_run_none hg h]
    simp [Reference.isNegative, Reference.isPositive, Reference.isOptional, Reference.repeats, hrepetition, hlook]
  | some rest =>
    rw [hs.phase_run_some hpin h]
    simp [Reference.isNegative, Reference.isPositive, Reference.repeats, hrepetition, hlook, Growth.after, Hit.adds,
      Hit.rest]

/-- A literal is matched if it is a prefix of the input. -/
theorem literal_run {value : List Char} (hvalue : value ≠ []) (answers : Answers) (input : List Char) :
    (((Target.literal value).plan input).run answers).value = (value.isPrefixOf? input).map .text := by
  have hempty : ¬ value.isEmpty = true := by simpa using hvalue
  simp [Target.plan, Plan.run, hempty]

/-- The target is one character of those that fulfil a condition. -/
def IsOneOf (holds : Char → Bool) (target : Target) : Prop :=
  ∀ (answers : Answers) (input : List Char), ((target.plan input).run answers).value =
    match input with
    | [] => none
    | d :: rest => if holds d then some (.text rest) else none

/-- What is left behind characters that fulfil the conditions one by one. -/
def restOfEach? : List (Char → Bool) → List Char → Option (List Char)
  | [], input => some input
  | _ :: _, [] => none
  | holds :: more, d :: rest => if holds d then restOfEach? more rest else none

/-- Single characters one after another match as the literal does. -/
theorem restOfEach?_eq_isPrefixOf? (value input : List Char) :
    restOfEach? (value.map fun c d => d = c) input = value.isPrefixOf? input := by
  induction value generalizing input with
  | nil =>
    cases input with
    | nil => rfl
    | cons d rest => rfl
  | cons c value ih =>
    cases input with
    | nil => rfl
    | cons d rest =>
      by_cases hdc : d = c
      · simp [restOfEach?, List.isPrefixOf?, hdc, ih]
      · have hne : (c == d) = false := by simpa using Ne.symm hdc
        simp [restOfEach?, List.isPrefixOf?, hdc, hne]

/-- Phases for one character each take up characters one by one. The induction is on the phases. -/
theorem Plain.each_run (hs : s.Plain) (hg : g.pinned = false) {each : List (Char → Bool)} {chars : List Phase}
    (h : List.Forall₂ (fun holds (ph : Phase) => ph.reference.isPlain = true ∧ IsOneOf holds ph.target) each chars)
    (phs : List Phase) : ((s.phases number g (chars ++ phs)).run answers).value =
      (restOfEach? each g.rest).bind fun rest =>
        ((s.phases (number + each.length) { g with rest, started := g.started || !each.isEmpty } phs).run
          answers).value := by
  induction h generalizing number g with
  | nil =>
    rw [restOfEach?, Option.bind_some, List.isEmpty_nil, Bool.not_true, Bool.or_false]
    rfl
  | @cons holds ph each chars hfirst _ ih =>
    obtain ⟨hmarks, hchar⟩ := hfirst
    rw [List.cons_append, phases_cons_run]
    cases hrest : g.rest with
    | nil =>
      have hmiss : ((ph.target.plan g.rest).run answers).value = Option.map .text (none : Option (List Char)) := by
        rw [hrest, hchar]
        rfl
      rw [hs.phase_run_text hg hmarks hmiss]
      rfl
    | cons d rest =>
      have htarget : ((ph.target.plan g.rest).run answers).value =
          Option.map .text (if holds d then some rest else none) := by
        rw [hrest, hchar]
        dsimp only
        split
        next => rfl
        next => rfl
      rw [hs.phase_run_text hg hmarks htarget]
      cases hd : holds d with
      | true =>
        have hnumber : number + 1 + each.length = number + (holds :: each).length := by
          rw [List.length_cons]
          omega
        have hmore := @ih (number + 1) { g with rest, started := true } hg
        simp only [if_true, Option.elim_some, restOfEach?, hd]
        rw [hmore, hnumber]
        simp
      | false => simp [restOfEach?, hd]

/-- Phases for the characters of a text take up the text. -/
theorem Plain.spelled_run (hs : s.Plain) (hg : g.pinned = false) {value : List Char} {chars : List Phase}
    (h : List.Forall₂ (fun c (ph : Phase) => ph.reference.isPlain = true ∧ IsChar c ph.target) value chars)
    (phs : List Phase) : ((s.phases number g (chars ++ phs)).run answers).value =
      (value.isPrefixOf? g.rest).bind fun rest =>
        ((s.phases (number + value.length) { g with rest, started := g.started || !value.isEmpty } phs).run
          answers).value := by
  have heach : List.Forall₂ (fun holds (ph : Phase) => ph.reference.isPlain = true ∧ IsOneOf holds ph.target)
      (value.map fun c d => decide (d = c)) chars := by
    refine List.forall₂_map_left_iff.2 (h.imp fun c ph hph => ⟨hph.1, fun answers input => ?_⟩)
    rw [hph.2]
    cases input with
    | nil => rfl
    | cons d rest => simp
  rw [hs.each_run hg heach, restOfEach?_eq_isPrefixOf?, List.length_map, List.isEmpty_map]

/-- A literal is matched as a whole or character by character. -/
theorem PhasesLike.literal {value : List Char} {chars : List Phase} (hmarks : ph.reference.isPlain = true)
    (htarget : ph.target = .literal value) (hvalue : value ≠ [])
    (h : List.Forall₂ (fun c (ph : Phase) => ph.reference.isPlain = true ∧ IsChar c ph.target) value chars)
    (hphs : PhasesLike answers answers' n phs phs') :
    PhasesLike answers answers' n (ph :: phs) (chars ++ phs') := by
  intro s s' number number' g hs hs' hg
  have hwhole : ((ph.target.plan g.rest).run answers).value = (value.isPrefixOf? g.rest).map .text := by
    rw [htarget, literal_run hvalue]
  have hstarted : (g.started || !value.isEmpty) = true := by simp [hvalue]
  rw [hs'.spelled_run hg.free h, phases_cons_run, hs.phase_run_text hg.free hmarks hwhole, hstarted]
  cases hprefix : value.isPrefixOf? g.rest with
  | none => exact ⟨rfl, by simp⟩
  | some rest =>
    have hlength := congrArg List.length (List.append_eq_of_isPrefixOf?_eq_some hprefix)
    rw [List.length_append] at hlength
    exact hphs s s' (number + 1) (number' + value.length) { g with rest, started := true } hs hs'
      ⟨(by have := hg.rest; dsimp only; omega), hg.free⟩

/-! ## Alternatives -/

/-- Alternatives with like phases make the same matches, but for the names of the rules. -/
theorem alternatives_like {alts alts' : List (List Phase)} {input : List Char} (hs : s.Plain) (hs' : s'.Plain)
    (hfragment : s'.rule.fragment = s.rule.fragment)
    (hname : s.rule.name = s'.rule.name ∨ s.rule.fragment = true)
    (h : List.Forall₂ (PhasesLike answers answers' input.length) alts alts') :
    Option.Rel (Match.Like s.rule.name s'.rule.name) ((s.alternatives input alts).run answers).value
      ((s'.alternatives input alts').run answers').value := by
  induction h with
  | nil => exact .none
  | @cons phs phs' alts alts' hphs _ ih =>
    obtain ⟨hsame, -⟩ := hphs s s' 1 1 { rest := input } hs hs' ⟨Nat.le_refl _, rfl⟩
    have halternative : ∀ (s : Scene) (answers : Answers) (phs : List Phase) (alts : List (List Phase)),
        ((s.alternatives input (phs :: alts)).run answers).value =
          match ((s.phases 1 { rest := input } phs).run answers).value with
          | some g => if g.started then some (g.close s.rule input) else
              ((s.alternatives input alts).run answers).value
          | none => ((s.alternatives input alts).run answers).value := by
      intro s answers phs alts
      rw [alternatives, alternative, Plan.run_bind, Plan.run_bind]
      cases ((s.phases 1 { rest := input } phs).run answers).value with
      | none => rfl
      | some g =>
        dsimp only
        cases g.started with
        | true => rfl
        | false => rfl
    rw [halternative, halternative, hsame]
    cases ((s.phases 1 { rest := input } phs).run answers).value with
    | none => exact ih
    | some g =>
      dsimp only
      cases g.started with
      | false => exact ih
      | true =>
        refine .some ⟨rfl, ?_, fun heq => ?_⟩
        · rcases hname with heq | hdissolves
          · simp only [Match.additions, Growth.close, hfragment, heq]
          · simp only [Match.additions, Growth.close, hfragment, hdissolves, if_true]
        · simp only [Growth.close, hfragment, heq]

end Scene

/-! ## Targets -/

section Targets

variable {answers answers' : Grammarian.Answers} {cs : List Char}

theorem Hit.like_refl (cs : List Char) (hit : Hit) : hit.Like cs hit := ⟨rfl, rfl⟩

/-- Whether the target is no rule. -/
def Target.isTerminal : Target → Bool
  | rule _ => false
  | literal _ | pattern _ | endOfInput => true

/-- A terminal is there or not, whatever is answered. -/
theorem Target.plan_terminal {target : Target} (h : target.isTerminal = true) (cs : List Char) :
    ∃ got, target.plan cs = .done got := by
  cases target with
  | rule name => cases h
  | literal value => exact ⟨_, rfl⟩
  | pattern p => exact ⟨_, rfl⟩
  | endOfInput => exact ⟨_, rfl⟩

/-- A terminal hits alike whatever the calls answer. -/
theorem Target.terminal_like {target : Target} (h : target.isTerminal = true) (cs : List Char) :
    Option.Rel (Hit.Like cs) ((target.plan cs).run answers).value ((target.plan cs).run answers').value := by
  obtain ⟨got, hgot⟩ := target.plan_terminal h cs
  rw [hgot]
  cases got with
  | none => exact .none
  | some hit => exact .some (hit.like_refl cs)

/-- A terminal leaves no more than it found. -/
theorem Target.terminal_shrink {target : Target} (h : target.isTerminal = true) (cs : List Char) :
    ∀ hit ∈ ((target.plan cs).run answers).value, (hit.rest cs).length ≤ cs.length := by
  intro hit hhit
  cases target with
  | rule name => cases h
  | literal value =>
    by_cases hvalue : value = []
    · subst hvalue
      cases hhit
      exact le_rfl
    · rw [Option.mem_def, Scene.literal_run hvalue] at hhit
      obtain ⟨rest, hrest, rfl⟩ := Option.map_eq_some_iff.1 hhit
      exact List.IsSuffix.length_le ⟨value, List.append_eq_of_isPrefixOf?_eq_some hrest⟩
  | pattern p =>
    obtain ⟨rest, hrest, rfl⟩ := Option.map_eq_some_iff.1 hhit
    exact (Pattern.match?_suffix hrest).length_le
  | endOfInput =>
    have hhit : (if cs.isEmpty then some (Hit.node .endOfInput) else none) = some hit := hhit
    split at hhit
    next =>
      cases hhit
      exact Nat.zero_le _
    next => cases hhit

/-- No hit of a target leaves more than there was. -/
theorem Target.shrink (hanswers : ∀ a cs, ∀ m ∈ (answers a cs).value, m.rest.length ≤ cs.length) (target : Target)
    (cs : List Char) : ∀ hit ∈ ((target.plan cs).run answers).value, (hit.rest cs).length ≤ cs.length := by
  cases target with
  | rule name =>
    intro hit hhit
    obtain ⟨m, hm, rfl⟩ := Option.map_eq_some_iff.1 hhit
    exact hanswers name cs m hm
  | literal value => exact Target.terminal_shrink rfl cs
  | pattern p => exact Target.terminal_shrink rfl cs
  | endOfInput => exact Target.terminal_shrink rfl cs

/-- Rules whose calls are alike hit alike. -/
theorem Target.rule_like {name name' : String}
    (h : Option.Rel (Match.Like name name') (answers name cs).value (answers' name' cs).value) :
    Option.Rel (Hit.Like cs) (((Target.rule name).plan cs).run answers).value
      (((Target.rule name').plan cs).run answers').value := by
  have hrun : ∀ (answers : Grammarian.Answers) (name : String), (((Target.rule name).plan cs).run answers).value =
      (answers name cs).value.map .node := fun _ _ => rfl
  rw [hrun, hrun]
  generalize (answers name cs).value = found at h ⊢
  generalize (answers' name' cs).value = found' at h ⊢
  cases h with
  | none => exact .none
  | some hlike => exact .some ⟨hlike.additions, hlike.rest⟩

end Targets

/-! ## Calls -/

namespace Table

variable {N : String → String → Prop} {leaf : String → Prop} {t t' : Table} {n : Nat} {answers answers' : Answers}

/-- What calls come to within `n` characters of the end: corresponding rules match alike, and a leaf matches what
its rule says without asking for others. -/
structure AnswersLike (N : String → String → Prop) (leaf : String → Prop) (t : Table) (n : Nat)
    (answers answers' : Answers) : Prop where
  pairs : ∀ a a' cs, N a a' → cs.length ≤ n →
    Option.Rel (Match.Like a a') (answers a cs).value (answers' a' cs).value
  leaves : ∀ a e cs, leaf a → t.entry? a = some e → cs.length ≤ n →
    (answers a cs).value = ((e.plan t.whitespace 0 cs).run fun _ _ => ⟨none, []⟩).value
  shrink : ∀ a cs, ∀ m ∈ (answers a cs).value, m.rest.length ≤ cs.length

/-- A phase does what it does with like answers, if its rule corresponds to itself. -/
theorem AnswersLike.phaseLike (h : AnswersLike N leaf t n answers answers') {ph : Phase}
    (hpin : ph.reference.pin = false) (hrule : ∀ name, ph.target = .rule name → N name name) :
    Scene.PhaseLike answers answers' n ph ph where
  repetition := rfl
  lookahead := rfl
  pin := hpin
  pin' := hpin
  target := by
    intro cs hcs
    cases htarget : ph.target with
    | rule name => exact Target.rule_like (h.pairs name name cs (hrule name htarget) hcs)
    | literal value => exact Target.terminal_like rfl cs
    | pattern p => exact Target.terminal_like rfl cs
    | endOfInput => exact Target.terminal_like rfl cs
  shrink cs _ := Target.shrink h.shrink ph.target cs

/-- Rules correspond one to one, leaves apart, and corresponding rules have like alternatives. -/
structure Like (N : String → String → Prop) (leaf : String → Prop) (t t' : Table) : Prop where
  unique : ∀ a a' b b', N a a' → N b b' → (a = b ↔ a' = b')
  apart : ∀ a a', N a a' → ¬ leaf a
  leaves : ∀ a, leaf a → ∃ e, t.entry? a = some e ∧
    ∀ depth cs, (e.plan t.whitespace depth cs).AsksOnly fun _ => False
  entries : ∀ a a', N a a' → ∃ e e', t.entry? a = some e ∧ t'.entry? a' = some e' ∧
    e.isPlain = true ∧ e'.isPlain = true ∧ e'.rule.fragment = e.rule.fragment ∧
    (a = a' ∨ e.rule.fragment = true) ∧
    ∀ n answers answers', AnswersLike N leaf t n answers answers' →
      List.Forall₂ (Scene.PhasesLike answers answers' n) e.alternatives e'.alternatives

/-- A plain rule none of whose symbols commits has a plain entry. -/
theorem Entry.isPlain_of_rule {r : Rule} (hr : r.IsPlain)
    (hpin : ∀ a ∈ r.alternatives, ∀ s ∈ a, s.asReference.pin = false) : Entry.isPlain ⟨r, r.phases⟩ = true := by
  simp only [Entry.isPlain, Rule.skipsWhitespace, hr.tight, hr.strict, hr.free, hr.whole, Rule.phases]
  simpa [Symbol.phase] using hpin

/-- The plan of a plain rule does what its alternatives do. -/
theorem Entry.plan_run_value {e : Entry} (h : e.isPlain = true) (answers : Answers) (whitespace : String)
    (depth : Nat) (input : List Char) : ((e.plan whitespace depth input).run answers).value =
      ((Scene.alternatives ⟨e.rule, whitespace, depth⟩ input e.alternatives).run answers).value := by
  obtain ⟨-, hwhole, -⟩ := Entry.scene_of_isPlain h whitespace depth
  have hcollapse : e.rule.collapse = id := by
    funext m
    simp [Rule.collapse, hwhole]
  rw [Entry.plan, Plan.run_bind, hcollapse, Option.map_id]
  rfl

/-- Calls are answered alike within a budget that the table cannot use up. -/
theorem AnswersLike.of_calls {n : Nat} {active active' : List Call} {b b' depth : Nat} {maxDepth : Option Nat}
    (h : Like N leaf t t') (hdepth : maxDepth = none ∨ ∀ a, ¬ leaf a)
    (hbudget : (t.idle n active).card < b) (hleaf : ∀ c ∈ active, ¬ leaf c.1)
    (hpairs : ∀ a a' cs, N a a' → cs.length ≤ n → Option.Rel (Match.Like a a')
      (t.call maxDepth b active depth a cs).value (t'.call maxDepth b' active' depth a' cs).value) :
    AnswersLike N leaf t n (t.call maxDepth b active depth) (t'.call maxDepth b' active' depth) where
  pairs := hpairs
  shrink a cs m hm := (call_obeys (Law.free_respected t.rules) _ _ _ _ a cs m hm).rest.length_le
  leaves a e cs ha he hcs := by
    obtain ⟨e', he', hnothing⟩ := h.leaves a ha
    obtain rfl : e = e' := Option.some.inj (he.symm.trans he')
    obtain rfl := hdepth.resolve_right fun hnone => hnone a ha
    have hnew : (a, cs.length) ∉ active := fun hmem => hleaf _ hmem ha
    have hidle := card_idle_cons_lt he hcs hnew
    obtain ⟨b, rfl⟩ : ∃ k, b = k + 1 := ⟨b - 1, by omega⟩
    rw [call_enter he (by simp) hnew, concluded_value, ← Plan.run_deepen_value _ depth (e.plan t.whitespace 0 cs),
      e.deepen_plan, Nat.zero_add]
    exact congrArg Traced.value ((hnothing depth cs).run_congr (fun _ _ _ => trivial) fun _ _ hfalse => hfalse.elim)

/-- Calls of corresponding rules match alike, provided that the budget allows for all calls that are not in
progress. The induction is on the budget. -/
theorem Like.call_like (h : Like N leaf t t') {maxDepth : Option Nat} (hdepth : maxDepth = none ∨ ∀ a, ¬ leaf a)
    {active active' : List Call} {budget budget' depth : Nat} {name name' : String} {input : List Char}
    (hname : N name name') (hbudget : (t.idle input.length active).card < budget)
    (hbudget' : (t'.idle input.length active').card < budget') (hleaf : ∀ c ∈ active, ¬ leaf c.1)
    (hactive : ∀ a a' k, N a a' → ((a, k) ∈ active ↔ (a', k) ∈ active')) :
    Option.Rel (Match.Like name name') (t.call maxDepth budget active depth name input).value
      (t'.call maxDepth budget' active' depth name' input).value := by
  induction budget generalizing active active' budget' depth name name' input with
  | zero => exact absurd hbudget (Nat.not_lt_zero _)
  | succ b ih =>
    obtain ⟨b', rfl⟩ : ∃ b', budget' = b' + 1 := ⟨budget' - 1, by omega⟩
    obtain ⟨e, e', he, he', hplain, hplain', hfragment, hsame, halternatives⟩ := h.entries _ _ hname
    by_cases hdeep : maxDepth.any (· < depth) = true
    · rw [call_too_deep he hdeep, call_too_deep he' hdeep]
      exact .none
    · have hiff := hactive _ _ input.length hname
      by_cases hin : (name, input.length) ∈ active
      · rw [call_in_progress he hdeep hin, call_in_progress he' hdeep (hiff.1 hin), concluded_value, concluded_value]
        exact .none
      · have hin' : (name', input.length) ∉ active' := fun hmem => hin (hiff.2 hmem)
        rw [call_enter he hdeep hin, call_enter he' hdeep hin', concluded_value, concluded_value,
          Entry.plan_run_value hplain, Entry.plan_run_value hplain']
        have hscene := (Entry.scene_of_isPlain hplain t.whitespace depth).1
        have hscene' := (Entry.scene_of_isPlain hplain' t'.whitespace depth).1
        have hleaf' : ∀ c ∈ (name, input.length) :: active, ¬ leaf c.1 :=
          List.forall_mem_cons.2 ⟨h.apart _ _ hname, hleaf⟩
        have halike : AnswersLike N leaf t input.length
            (t.call maxDepth b ((name, input.length) :: active) (depth + 1))
            (t'.call maxDepth b' ((name', input.length) :: active') (depth + 1)) := by
          refine .of_calls h hdepth (card_idle_within he hin le_rfl hbudget) hleaf' fun a a' cs ha hcs => ?_
          refine ih ha (card_idle_within he hin hcs hbudget) (card_idle_within he' hin' hcs hbudget') hleaf'
            fun c c' k hc => ?_
          rw [List.mem_cons, List.mem_cons, hactive c c' k hc, Prod.mk.injEq, Prod.mk.injEq,
            h.unique c c' name name' hc hname]
        have hresult := Scene.alternatives_like hscene hscene' hfragment
          (by rw [name_of_entry he, name_of_entry he']; exact hsame) (halternatives _ _ _ halike)
        rwa [name_of_entry he, name_of_entry he'] at hresult

end Table

/-- A parse from a rule that corresponds to itself comes to the same with both tables. -/
theorem Parser.parse_like {N : String → String → Prop} {leaf : String → Prop} {p p' : Parser}
    (h : Table.Like N leaf p.table p'.table) (hoptions : p'.options = p.options)
    (hdepth : p.options.maxDepth = none ∨ ∀ a, ¬ leaf a) {start : String} (hstart : N start start) (input : String) :
    p'.parse input (some start) = p.parse input (some start) := by
  obtain ⟨e, e', he, he', -⟩ := h.entries start start hstart
  have hcontains : p.table.contains start = true := by rw [Table.contains, he]; rfl
  have hcontains' : p'.table.contains start = true := by rw [Table.contains, he']; rfl
  have hcall : Option.Rel (Match.Like start start) (p.startMatch input (some start)).value
      (p'.startMatch input (some start)).value := by
    rw [startMatch, startMatch, hoptions]
    exact h.call_like hdepth hstart (Nat.lt_succ_of_le (p.table.card_idle_le _ []))
      (Nat.lt_succ_of_le (p'.table.card_idle_le _ [])) (by simp) fun _ _ _ _ => by simp
  have hvalue : (p'.startMatch input (some start)).value = (p.startMatch input (some start)).value := by
    generalize (p'.startMatch input (some start)).value = found' at hcall
    generalize (p.startMatch input (some start)).value = found at hcall
    cases hcall with
    | none => rfl
    | some hlike => rw [hlike.same rfl]
  rw [parse, parse, run_of_contains hcontains', run_of_contains hcontains, hvalue, hoptions]
  rfl

end Grammarian
