import Grammarian.Proofs.Grammar.Accepted
import Grammarian.Proofs.Parse.Calls
import Grammarian.Proofs.Parse.Rounds

/-!
# Commitment

A rule is committed to an alternative once a phase that commits it has matched. From then on every phase
that consumes may fail without harm: the alternative goes on, or ends in a syntax error. Only looking ahead
can still give it up, and then the next alternative is attempted after all; this is the one exception.
-/

namespace Grammarian

/-- A growth from which an alternative is a match as soon as it ends, and is not to be given up. -/
structure Growth.Committed (g : Growth) : Prop where
  pinned : g.pinned = true
  started : g.started = true

/-- The phase did not come about: the round ends the alternative. -/
def RoundEnd.Fails : RoundEnd → Prop
  | again _ | next _ => False
  | stop _ | fail => True

/-- How a round may end that begins with a committed growth: committed still, also where it breaks off with
a syntax error, which no look-ahead does, or given up for what lies ahead. -/
def RoundEnd.Keeps (ph : Phase) (reached : Growth) : RoundEnd → Prop
  | again g | next g => g.Committed
  | stop g => g.Committed ∧ ph.reference.isLookahead = false ∧ g = Scene.breakOff ph reached
  | fail => ph.reference.isLookahead = true

namespace Scene

section Rounds

variable {s : Scene} {answers : Answers} {number : Nat} {ph : Phase} {again : Bool} {g g' : Growth}

theorem take_flags (ph : Phase) (g : Growth) (hit : Hit) :
    (take ph g hit).1.pinned = g.pinned ∧ (take ph g hit).1.started = true := by
  cases hit with
  | nothing => exact ⟨rfl, rfl⟩
  | text rest | node m =>
    simp only [take]
    split
    · exact ⟨rfl, rfl⟩
    · exact ⟨rfl, rfl⟩

/-- A round that takes something from a pinned growth goes on with a committed one. -/
theorem settle_committed (ph : Phase) (hit : Hit) (hpinned : g.pinned = true) :
    ∃ g', g'.Committed ∧ (settle ph g hit = .again g' ∨ settle ph g hit = .next g') := by
  obtain ⟨hkept, hstarted⟩ := take_flags ph g hit
  refine ⟨(take ph g hit).1, ⟨hkept.trans hpinned, hstarted⟩, ?_⟩
  unfold settle
  split
  · exact .inl rfl
  · exact .inr rfl

theorem skipWhitespace_flags (whitespace : String) (g : Growth) :
    (skipWhitespace whitespace g).Meets .any fun g' =>
      g'.pinned = g.pinned ∧ g'.started = g.started :=
  skipWhitespace_preserves (fun _ _ => trivial) (fun _ _ hflags _ _ => hflags) ⟨rfl, rfl⟩

/-- White space taken for a target changes nothing about commitment. -/
theorem reached_flags (s : Scene) (answers : Answers) (number : Nat) (ph : Phase) (again : Bool)
    (g : Growth) :
    (s.roundAt answers number ph again g).reached.pinned = g.pinned ∧
      (s.roundAt answers number ph again g).reached.started = g.started := by
  rw [reached_eq]
  split
  · exact (skipWhitespace_flags s.whitespace g).run_value answers
  · exact ⟨rfl, rfl⟩

/-- Whether a round is the match of a phase that commits the rule. -/
structure Commits (s : Scene) (r : Round) : Prop where
  pins : s.pins r.number r.phase = true
  matched : r.got.isSome = true
  sought : r.phase.reference.isNegative = false

/-- A round that commits the rule goes on with a committed growth. -/
theorem Commits.committed (h : s.Commits (s.roundAt answers number ph again g)) :
    ∃ g', g'.Committed ∧ ((s.roundAt answers number ph again g).ending = .again g' ∨
      (s.roundAt answers number ph again g).ending = .next g') := by
  obtain ⟨hpins, hmatched, hsought⟩ := h
  have hround := s.concludes_roundAt answers number ph again g
  generalize (s.roundAt answers number ph again g).reached = g₀ at hround
  generalize (s.roundAt answers number ph again g).ending = ending at hround ⊢
  generalize (s.roundAt answers number ph again g).got = got at hround hmatched
  cases hround with
  | hit hit hph =>
    have hpins : s.pins number ph = true := hpins
    exact settle_committed ph hit (by simp [hpins])
  | forbidden hit hph =>
    have hsought : ph.reference.isNegative = false := hsought
    rw [hph] at hsought
    cases hsought
  | absent | missing | optional | breakOff | recovered | lost => cases hmatched

theorem settle_pinned {hit : Hit} (h : settle ph g hit = .again g' ∨ settle ph g hit = .next g') :
    g'.pinned = g.pinned := by
  have htake := (take_flags ph g hit).1
  unfold settle at h
  split at h
  · rcases h with h | h
    · cases h
      exact htake
    · cases h
  · rcases h with h | h
    · cases h
    · cases h
      exact htake

/-- What goes on after a round is committed just when it was before, or the round commits the rule. -/
theorem pinned_roundAt (h : (s.roundAt answers number ph again g).ending = .again g' ∨
    (s.roundAt answers number ph again g).ending = .next g') :
    g'.pinned = true ↔ g.pinned = true ∨ s.Commits (s.roundAt answers number ph again g) := by
  have hcommits : s.Commits (s.roundAt answers number ph again g) ↔ s.pins number ph = true ∧
      (s.roundAt answers number ph again g).got.isSome = true ∧ ph.reference.isNegative = false :=
    ⟨fun hc => ⟨hc.pins, hc.matched, hc.sought⟩, fun hc => ⟨hc.1, hc.2.1, hc.2.2⟩⟩
  have hround := s.concludes_roundAt answers number ph again g
  have hreached := (s.reached_flags answers number ph again g).1
  rw [hcommits]
  generalize (s.roundAt answers number ph again g).reached = g₀ at hround hreached
  generalize (s.roundAt answers number ph again g).ending = ending at hround h
  generalize (s.roundAt answers number ph again g).got = got at hround
  cases hround with
  | forbidden | missing | lost | breakOff => simp at h
  | absent | optional =>
    obtain rfl : g₀ = g' := by simpa using h
    simp [hreached]
  | hit hit hph => simp [settle_pinned h, hreached, hph]
  | recovered m hph hpinned hm => simp [settle_pinned h, hreached]

/-- **When a rule is committed.** A round begins with a committed growth just when an earlier round commits. -/
theorem before_pinned_iff {phs : List Phase} {front back : List Round} {r : Round}
    (h : s.rounds answers number again g phs = front ++ r :: back) :
    r.before.pinned = true ↔ g.pinned = true ∨ ∃ r' ∈ front, s.Commits r' := by
  induction number, again, g, phs using rounds.induct s answers generalizing front with
  | case1 number again g => simp [rounds] at h
  | case2 number again g ph phs ihAgain ihNext =>
    rw [rounds_cons] at h
    cases front with
    | nil =>
      obtain ⟨rfl, -⟩ := List.cons.inj h
      simp [roundAt]
    | cons r' front =>
      obtain ⟨rfl, hrest⟩ := List.cons.inj h
      rw [List.exists_mem_cons_iff, ← or_assoc]
      cases hend : (s.roundAt answers number ph again g).ending with
      | again g' =>
        rw [hend] at hrest
        rw [ihAgain g' hend hrest, pinned_roundAt (.inl hend)]
      | next g' =>
        rw [hend] at hrest
        rw [ihNext g' hrest, pinned_roundAt (.inr hend)]
      | stop g' | fail =>
        rw [hend] at hrest
        simp [roundsAfter] at hrest

theorem roundAt_keeps (s : Scene) (answers : Answers) (number : Nat) (ph : Phase) (again : Bool)
    (hg : g.Committed) :
    (s.roundAt answers number ph again g).ending.Keeps ph
      (s.roundAt answers number ph again g).reached := by
  obtain ⟨hpinned, hstarted⟩ := s.reached_flags answers number ph again g
  have hround := s.concludes_roundAt answers number ph again g
  generalize (s.roundAt answers number ph again g).reached = g₀ at hround hpinned hstarted ⊢
  generalize (s.roundAt answers number ph again g).ending = ending at hround ⊢
  generalize (s.roundAt answers number ph again g).got = got at hround
  have hg₀ : g₀.Committed := ⟨hpinned.trans hg.pinned, hstarted.trans hg.started⟩
  cases hround with
  | forbidden hit hph =>
    change ph.reference.isLookahead = true
    simp_all [Reference.isNegative, Reference.isLookahead]
  | missing hph =>
    change ph.reference.isLookahead = true
    simp_all [Reference.isPositive, Reference.isLookahead]
  | absent | optional => exact hg₀
  | hit hit hph =>
    have hpinned : (g₀.pinned || s.pins number ph) = true := by simp [hg₀.pinned]
    obtain ⟨g', hg', hend | hend⟩ :=
      settle_committed (g := { g₀ with pinned := g₀.pinned || s.pins number ph }) ph hit hpinned
    · rw [hend]
      exact hg'
    · rw [hend]
      exact hg'
  | breakOff hph hpin => exact ⟨⟨hg₀.pinned, rfl⟩, hph, rfl⟩
  | recovered m hph hpin hm =>
    rw [hg₀.pinned] at hpin
    cases hpin
  | lost hph hpin =>
    rw [hg₀.pinned] at hpin
    cases hpin

/-- Rounds that begin with a committed growth keep to it, and what they come to is committed. -/
theorem rounds_keep (s : Scene) (answers : Answers) (number : Nat) (again : Bool) (hg : g.Committed)
    (phs : List Phase) :
    (∀ g' ∈ outcome g (s.rounds answers number again g phs), g'.Committed) ∧
      ∀ r ∈ s.rounds answers number again g phs, r.ending.Keeps r.phase r.reached := by
  induction number, again, g, phs using rounds.induct s answers with
  | case1 number again g => simpa [rounds, outcome] using hg
  | case2 number again g ph phs ihAgain ihNext =>
    have hround := s.roundAt_keeps answers number ph again hg
    rw [rounds_cons, outcome, List.forall_mem_cons]
    cases hend : (s.roundAt answers number ph again g).ending with
    | again g' =>
      rw [hend] at hround
      obtain ⟨hout, hrounds⟩ := ihAgain g' hend hround
      exact ⟨hout, hround, hrounds⟩
    | next g' =>
      rw [hend] at hround
      obtain ⟨hout, hrounds⟩ := ihNext g' hround
      exact ⟨hout, hround, hrounds⟩
    | stop g' =>
      rw [hend] at hround
      refine ⟨?_, hround, by simp [roundsAfter]⟩
      rintro g'' ⟨⟩
      exact hround.1
    | fail =>
      rw [hend] at hround
      exact ⟨by simp, hround, by simp [roundsAfter]⟩

/-- Rounds come to nothing just when one of them gives the alternative up. -/
theorem outcome_eq_none_iff (phs : List Phase) :
    outcome g (s.rounds answers number again g phs) = none ↔
      ∃ r ∈ s.rounds answers number again g phs, r.ending = .fail := by
  induction number, again, g, phs using rounds.induct s answers with
  | case1 number again g => simp [rounds, outcome]
  | case2 number again g ph phs ihAgain ihNext =>
    rw [rounds_cons, outcome, List.exists_mem_cons_iff]
    cases hend : (s.roundAt answers number ph again g).ending with
    | again g' => simpa [roundsAfter] using ihAgain g' hend
    | next g' => simpa [roundsAfter] using ihNext g'
    | stop g' => simp [roundsAfter]
    | fail => simp

/-- A round that breaks the alternative off decides what it comes to. -/
theorem outcome_of_stop {phs : List Phase} {r : Round} (hr : r ∈ s.rounds answers number again g phs)
    (hstop : r.ending = .stop g') : outcome g (s.rounds answers number again g phs) = some g' := by
  obtain ⟨front, back, h⟩ := List.append_of_mem hr
  obtain ⟨_, _, _, _, _, -, -, hout⟩ := exists_of_rounds_eq h
  rw [h, hout, outcome, hstop]

/-- **Commitment.** After a round that commits the rule, the alternative is given up just when a later
look-ahead fails; where another phase fails, the match ends with the syntax error for it. -/
theorem outcome_of_commits {phs : List Phase} {front back : List Round} {r : Round}
    (h : s.rounds answers number again g phs = front ++ r :: back) (hr : s.Commits r) :
    (outcome g (s.rounds answers number again g phs) = none ↔
        ∃ r' ∈ back, r'.phase.reference.isLookahead = true ∧ r'.ending.Fails) ∧
      ∀ g' ∈ outcome g (s.rounds answers number again g phs), g'.started = true ∧
        ∀ r' ∈ back, r'.ending.Fails → g' = Scene.breakOff r'.phase r'.reached := by
  obtain ⟨number', again', g₀, ph, phs', rfl, hback, hout⟩ := exists_of_rounds_eq h
  obtain ⟨g₁, hg₁, hend⟩ := hr.committed
  -- The rounds after the committing one are those of an alternative that begins with a committed growth.
  obtain ⟨n, a, qs, hback, hout₁⟩ : ∃ n a qs, back = s.rounds answers n a g₁ qs ∧
      outcome g (s.rounds answers number again g phs) = outcome g₁ back := by
    rw [h, hout, outcome]
    rcases hend with hend | hend
    · rw [hend] at hback ⊢
      exact ⟨number', true, ph :: phs', hback, rfl⟩
    · rw [hend] at hback ⊢
      exact ⟨number' + 1, false, phs', hback, rfl⟩
  obtain ⟨hcommitted, hkeep⟩ := s.rounds_keep answers n a hg₁ qs
  rw [hout₁, hback]
  refine ⟨?_, fun g' hg' => ⟨(hcommitted g' hg').started, fun r' hr' hfails => ?_⟩⟩
  · rw [outcome_eq_none_iff]
    refine exists_congr fun r' => and_congr_right fun hr' => ?_
    have hkeeps := hkeep r' hr'
    cases hend : r'.ending with
    | again g' | next g' => simp [RoundEnd.Fails]
    | stop g' =>
      rw [hend] at hkeeps
      simp [hkeeps.2.1]
    | fail =>
      rw [hend] at hkeeps
      have hlook : r'.phase.reference.isLookahead = true := hkeeps
      simp [hlook, RoundEnd.Fails]
  · have hkeeps := hkeep r' hr'
    cases hend : r'.ending with
    | again g' | next g' =>
      rw [hend] at hfails
      exact absurd hfails id
    | stop g'' =>
      rw [hend] at hkeeps
      rw [outcome_of_stop hr' hend, Option.mem_some_iff] at hg'
      exact hg' ▸ hkeeps.2.2
    | fail =>
      rw [(outcome_eq_none_iff qs).2 ⟨r', hr', hend⟩] at hg'
      cases hg'

end Rounds

section Alternatives

variable {s : Scene} {answers : Answers} {input : List Char}

/-- The alternatives that are attempted: those up to the first that matches. -/
def attempted (s : Scene) (answers : Answers) (input : List Char) :
    List (List Phase) → List (List Phase)
  | [] => []
  | phs :: more =>
    phs :: if ((s.alternative input phs).run answers).value.isSome then []
      else s.attempted answers input more

/-- A match ends the attempts, and what was attempted last is what the alternatives come to. -/
theorem alternatives_value_of_attempted {alts earlier later : List (List Phase)} {phs : List Phase}
    {m : Match} (h : s.attempted answers input alts = earlier ++ phs :: later)
    (hm : ((s.alternative input phs).run answers).value = some m) :
    later = [] ∧ ((s.alternatives input alts).run answers).value = some m := by
  induction alts generalizing earlier with
  | nil => simp [attempted] at h
  | cons phs' alts ih =>
    rw [attempted] at h
    rw [alternatives, Plan.run_bind_value]
    cases earlier with
    | nil =>
      obtain ⟨rfl, hlater⟩ := List.cons.inj h
      simp only [hm, Option.isSome_some, if_true] at hlater ⊢
      exact ⟨hlater.symm, rfl⟩
    | cons phs'' earlier =>
      obtain ⟨rfl, hlater⟩ := List.cons.inj h
      cases hm' : ((s.alternative input phs').run answers).value with
      | some m' => simp [hm'] at hlater
      | none =>
        simp only [hm', Option.isSome_none, Bool.false_eq_true, if_false] at hlater
        exact ih hlater

/-- An alternative is the match that its rounds end with, if one of them has matched. -/
theorem alternative_value (s : Scene) (answers : Answers) (input : List Char) (phs : List Phase) :
    ((s.alternative input phs).run answers).value =
      (outcome { rest := input } (s.rounds answers 1 false { rest := input } phs)).bind fun g =>
        if g.started then some (g.close s.rule input) else none := by
  rw [alternative, Plan.run_bind_value, phases_value]
  cases outcome { rest := input } (s.rounds answers 1 false { rest := input } phs) with
  | none => rfl
  | some g => rfl

end Alternatives

end Scene

namespace Table

/-- The surroundings of a call of a rule of the table. -/
def sceneOf (t : Table) (e : Entry) (depth : Nat) : Scene := ⟨e.rule, t.whitespace, depth⟩

/-- The answers that a call of a rule gets while it is in progress. -/
def answersWithin (t : Table) (maxDepth : Option Nat) (budget : Nat) (active : List Call)
    (depth : Nat) (name : String) (input : List Char) : Answers :=
  t.call maxDepth budget ((name, input.length) :: active) (depth + 1)

variable {t : Table} {name : String} {e : Entry} {budget depth : Nat} {active : List Call}
  {input : List Char}

/-- A call that is entered comes to the match of its alternatives. -/
theorem call_value_of_enter (he : t.entry? name = some e) (hnew : (name, input.length) ∉ active) :
    (t.call none (budget + 1) active depth name input).value =
      (((t.sceneOf e depth).alternatives input e.alternatives).run
        (t.answersWithin none budget active depth name input)).value.map e.rule.collapse := by
  rw [call_enter he (by simp) hnew, concluded_value, Entry.plan, Plan.run_bind_value]
  rfl

/-- **Commitment holds but for look-ahead.** In a call without limit on depth, let one of the attempted
alternatives have a round that commits the rule. Then no later alternative is attempted and the call
comes to the match of this one, which ends with the syntax error for the phase that fails, if one does:
just when no look-ahead fails after the commitment. -/
theorem commitment_kept_iff (he : t.entry? name = some e) (hnew : (name, input.length) ∉ active)
    {earlier later : List (List Phase)} {phs : List Phase} {front back : List Round} {r : Round}
    (htried : (t.sceneOf e depth).attempted (t.answersWithin none budget active depth name input) input
      e.alternatives = earlier ++ phs :: later)
    (hrounds : (t.sceneOf e depth).rounds (t.answersWithin none budget active depth name input) 1 false
      { rest := input } phs = front ++ r :: back)
    (hcommits : (t.sceneOf e depth).Commits r) :
    (later = [] ∧ ∃ m, (((t.sceneOf e depth).alternative input phs).run
          (t.answersWithin none budget active depth name input)).value = some m ∧
        (t.call none (budget + 1) active depth name input).value = some (e.rule.collapse m) ∧
        ∀ r' ∈ back, r'.ending.Fails →
          m.draft.children = r'.reached.children ++
            [.ofFault (.missing r'.phase.reference.name) r'.reached.rest []] ∧ m.rest = []) ↔
      ∀ r' ∈ back, r'.phase.reference.isLookahead = true → ¬ r'.ending.Fails := by
  obtain ⟨hnone, hsome⟩ := Scene.outcome_of_commits hrounds hcommits
  have hvalue := (t.sceneOf e depth).alternative_value
    (t.answersWithin none budget active depth name input) input phs
  constructor
  · rintro ⟨-, m, hm, -⟩ r' hr' hlook hfails
    rw [hnone.2 ⟨r', hr', hlook, hfails⟩, hm] at hvalue
    cases hvalue
  · intro hkept
    cases hout : Scene.outcome { rest := input } ((t.sceneOf e depth).rounds
        (t.answersWithin none budget active depth name input) 1 false { rest := input } phs) with
    | none =>
      obtain ⟨r', hr', hlook, hfails⟩ := hnone.1 hout
      exact absurd hfails (hkept r' hr' hlook)
    | some g =>
      obtain ⟨hstarted, hstop⟩ := hsome g hout
      rw [hout, Option.bind_some, if_pos hstarted] at hvalue
      obtain ⟨hlater, halts⟩ := Scene.alternatives_value_of_attempted htried hvalue
      refine ⟨hlater, _, hvalue, ?_, fun r' hr' hfails => ?_⟩
      · rw [call_value_of_enter he hnew, halts]
        rfl
      · rw [hstop r' hr' hfails]
        exact ⟨rfl, rfl⟩

/-- A rule of two alternatives that both begin with `x`, which commits the rule. -/
def twoWays (second : Symbol) : Rule where
  name := "A"
  alternatives := [[.literal "x", second, .literal "z"], [.literal "x", .literal "w"]]
  pinAt := some 1

/-- The grammar of the one rule. -/
def ofTwoWays (second : Symbol) : Table := ofRules [twoWays second] "WS"

/-- The surroundings of a call of the rule. -/
def sceneOfTwoWays (second : Symbol) : Scene :=
  (ofTwoWays second).sceneOf ⟨twoWays second, (twoWays second).phases⟩ 0

/-- The answers that the rule gets when it is called on `xw`. -/
def answersToTwoWays (second : Symbol) : Answers :=
  (ofTwoWays second).answersWithin none 2 [] 0 "A" ['x', 'w']

/-- The first alternative of the rule. -/
def firstOfTwoWays (second : Symbol) : List Phase :=
  [.literal "x", second, .literal "z"].map Symbol.phase

theorem ofTwoWays_entry (second : Symbol) :
    entry? (ofTwoWays second) "A" = some ⟨twoWays second, (twoWays second).phases⟩ := rfl

/-- Where the second phase is a literal, `w` becomes a syntax error. -/
theorem twoWays_keeps_commitment : ∃ m,
    (((sceneOfTwoWays (.literal "y")).alternative ['x', 'w'] (firstOfTwoWays (.literal "y"))).run
      (answersToTwoWays (.literal "y"))).value = some m ∧
    ((ofTwoWays (.literal "y")).call none 3 [] 0 "A" ['x', 'w']).value =
      some ((twoWays (.literal "y")).collapse m) := by
  have hplain : ∀ ph ∈ firstOfTwoWays (.literal "y"), ¬ ph.reference.isLookahead = true := by
    simp [firstOfTwoWays, Symbol.phase, Symbol.asReference, Reference.plain, Reference.isLookahead]
  have hcommits : (sceneOfTwoWays (.literal "y")).Commits
      ((sceneOfTwoWays (.literal "y")).roundAt (answersToTwoWays (.literal "y")) 1
        (Symbol.literal "x").phase false { rest := ['x', 'w'] }) :=
    ⟨rfl, by decide +kernel, rfl⟩
  have htried : (sceneOfTwoWays (.literal "y")).attempted (answersToTwoWays (.literal "y")) ['x', 'w']
      (twoWays (.literal "y")).phases = [] ++ firstOfTwoWays (.literal "y") :: _ := rfl
  have hrounds : (sceneOfTwoWays (.literal "y")).rounds (answersToTwoWays (.literal "y")) 1 false
      { rest := ['x', 'w'] } (firstOfTwoWays (.literal "y")) = [] ++ _ :: _ := Scene.rounds_cons ..
  obtain ⟨-, m, hm, hcall, -⟩ := (commitment_kept_iff (ofTwoWays_entry (.literal "y")) (by simp)
    htried hrounds hcommits).2 fun r' hr' hlook => by
      have hmem : r' ∈ (sceneOfTwoWays (.literal "y")).rounds (answersToTwoWays (.literal "y")) 1 false
          { rest := ['x', 'w'] } (firstOfTwoWays (.literal "y")) :=
        hrounds ▸ List.mem_cons_of_mem _ hr'
      exact absurd hlook (hplain r'.phase (Scene.phase_mem_of_mem_rounds hmem))
  exact ⟨m, hm, hcall⟩

/-- Looking ahead for `y`. -/
def aheadForY : Symbol := .reference (.ofText "&\"y\"")

/-- Where the second phase looks ahead for `y`, its failure gives the commitment up: the second alternative
is attempted too, and takes `xw` without an error. -/
theorem lookahead_gives_up_commitment :
    Table.build [twoWays aheadForY] "WS" =
      .ok (ofTwoWays aheadForY) ∧
    (∃ later r back,
      (sceneOfTwoWays aheadForY).attempted (answersToTwoWays aheadForY) ['x', 'w']
        (twoWays aheadForY).phases = firstOfTwoWays aheadForY :: later ∧
      (sceneOfTwoWays aheadForY).rounds (answersToTwoWays aheadForY) 1 false { rest := ['x', 'w'] }
        (firstOfTwoWays aheadForY) = r :: back ∧
      (sceneOfTwoWays aheadForY).Commits r ∧ later ≠ []) ∧
    ((ofTwoWays aheadForY).matchRule none "A" ['x', 'w']).value.map
      (fun m => (m.rest, m.draft.children.length)) = some ([], 0) := by
  refine ⟨build_eq_ok_iff.2 ⟨by cbv, rfl⟩, ⟨_, _, _, rfl, Scene.rounds_cons .., ?_, ?_⟩, ?_⟩
  · exact ⟨rfl, by decide +kernel, rfl⟩
  · refine List.ne_nil_of_length_pos ?_
    decide +kernel
  · decide +kernel

end Table

end Grammarian
