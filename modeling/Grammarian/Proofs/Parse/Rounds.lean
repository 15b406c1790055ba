import Grammarian.Proofs.Parse.Phases

/-!
# Rounds

An alternative is matched in rounds. A phase has one round, or several where it repeats, and a round asks
for the target once: at the cursor, or behind white space. `Scene.round` is a round as a plan, and
`phase_eq_round` says that a phase is nothing but its rounds. With the answers given, `Scene.rounds` lists
the rounds of an alternative; `phases_value` reads off them what the alternative comes to.
-/

namespace Grammarian

/-- How a round of a phase ends. -/
inductive RoundEnd where
  /-- the phase has another round -/
  | again (g : Growth)
  | next (g : Growth)
  /-- the alternative ends here, with all input taken -/
  | stop (g : Growth)
  | fail

namespace Plan

theorem bind_assoc {α β γ : Type} (p : Plan α) (f : α → Plan β) (f' : β → Plan γ) :
    (p.bind f).bind f' = p.bind fun value => (f value).bind f' := by
  induction p with
  | done value => rfl
  | report event next ih => exact congrArg (report event) ih
  | ask rule input next ih => exact congrArg (ask rule input) (funext ih)

theorem run_bind_value {α β : Type} (answers : Answers) (p : Plan α) (f : α → Plan β) :
    ((p.bind f).run answers).value = ((f (p.run answers).value).run answers).value := by
  rw [run_bind]

/-- What holds whatever the answers are holds of a run. -/
theorem Meets.run_value {α : Type} {p : Plan α} {post : α → Prop} (h : p.Meets .any post)
    (answers : Answers) : post (p.run answers).value :=
  h.of_run fun _ _ _ => trivial

end Plan

namespace Scene

/-- The end of a round in which something is taken. -/
def settle (ph : Phase) (g : Growth) (hit : Hit) : RoundEnd :=
  if (take ph g hit).2 then .again (take ph g hit).1 else .next (take ph g hit).1

/-- The end of a round in which the target does not match. -/
def miss (s : Scene) (ph : Phase) (again : Bool) (g : Growth) : Plan RoundEnd :=
  if ph.reference.isPositive then .done .fail
  else if ph.reference.isOptional then .done (.next g)
  else if ph.reference.repeats && again then .done (.next g)
  else if g.pinned then
    .report (.syntaxError s.rule.name ph.reference.name s.depth) (.done (.stop (breakOff ph g)))
  else (s.recover g.rest).bind fun recovered =>
    match recovered with
    | some m => .done (settle ph g (.node m))
    | none => .done .fail

/-- The end of a round in which the target comes to `got`. -/
def conclude (s : Scene) (number : Nat) (ph : Phase) (again : Bool) (g : Growth) (got : Option Hit) :
    Plan RoundEnd :=
  if ph.reference.isNegative then .done (if got.isSome then .fail else .next g)
  else
    match got with
    | some hit => (s.commit number ph g).bind fun g => .done (settle ph g hit)
    | none => s.miss ph again g

/-- A round of a phase. `again` tells that the phase has matched before. -/
def round (s : Scene) (number : Nat) (ph : Phase) (again : Bool) (g : Growth) : Plan RoundEnd :=
  (s.reach ph.target g).bind fun r => s.conclude number ph again r.1 r.2

/-- What a phase does after a round. -/
def goOn (s : Scene) (number : Nat) (ph : Phase) : RoundEnd → Plan PhaseEnd
  | .again g => s.phase number ph true g
  | .next g => .done (.next g)
  | .stop g => .done (.stop g)
  | .fail => .done .fail

theorem goOn_settle (s : Scene) (number : Nat) (ph : Phase) (g : Growth) (hit : Hit) :
    s.goOn number ph (settle ph g hit) = s.afterHit number ph g hit := by
  unfold settle afterHit
  split
  · rfl
  · rfl

theorem miss_bind_goOn (s : Scene) (number : Nat) (ph : Phase) (again : Bool) (g : Growth) :
    (s.miss ph again g).bind (s.goOn number ph) = s.afterMiss number ph again g := by
  unfold miss afterMiss
  split
  · rfl
  · split
    · rfl
    · split
      · rfl
      · split
        · rfl
        · rw [Plan.bind_assoc]
          congr 1
          funext recovered
          cases recovered with
          | none => rfl
          | some m => exact s.goOn_settle number ph g (.node m)

/-- A phase is its rounds. -/
theorem phase_eq_round (s : Scene) (number : Nat) (ph : Phase) (again : Bool) (g : Growth) :
    s.phase number ph again g = (s.round number ph again g).bind (s.goOn number ph) := by
  rw [phase_eq, round, Plan.bind_assoc]
  congr 1
  funext r
  obtain ⟨g', got⟩ := r
  unfold conclude
  split
  · cases got with
    | some hit => rfl
    | none => rfl
  · cases got with
    | some hit =>
      dsimp only
      rw [Plan.bind_assoc]
      congr 1
      funext g''
      exact (s.goOn_settle number ph g'' hit).symm
    | none => exact (s.miss_bind_goOn number ph again g').symm

end Scene

/-- A round of an alternative, as it goes with the answers given. -/
structure Round where
  /-- the number of the phase -/
  number : Nat
  phase : Phase
  before : Growth
  /-- the growth with the white space taken for the target -/
  reached : Growth
  /-- what the target came to -/
  got : Option Hit
  ending : RoundEnd

namespace Scene

section Run

variable {s : Scene} {answers : Answers} {number : Nat} {ph : Phase} {again : Bool} {g g' : Growth}

/-- The round of a phase that the answers lead to. -/
def roundAt (s : Scene) (answers : Answers) (number : Nat) (ph : Phase) (again : Bool) (g : Growth) :
    Round :=
  let r := ((s.reach ph.target g).run answers).value
  { number, phase := ph, before := g, reached := r.1, got := r.2
    ending := ((s.conclude number ph again r.1 r.2).run answers).value }

/-- A target is looked for at the cursor first, and behind white space if the rule skips it. -/
theorem reached_eq (s : Scene) (answers : Answers) (number : Nat) (ph : Phase) (again : Bool)
    (g : Growth) :
    (s.roundAt answers number ph again g).reached =
      if ((ph.target.plan g.rest).run answers).value = none ∧ s.rule.skipsWhitespace = true then
        ((skipWhitespace s.whitespace g).run answers).value
      else g := by
  simp only [roundAt, reach, Plan.run_bind_value]
  cases hgot : ((ph.target.plan g.rest).run answers).value with
  | some hit => simp [Plan.run]
  | none =>
    dsimp only
    split
    next hskip => simp [hskip, Plan.run_bind_value, Plan.run]
    next hskip => simp [hskip, Plan.run]

/-- What the target comes to is what it comes to at the place it is looked for last. -/
theorem got_eq (s : Scene) (answers : Answers) (number : Nat) (ph : Phase) (again : Bool) (g : Growth) :
    (s.roundAt answers number ph again g).got =
      ((ph.target.plan (s.roundAt answers number ph again g).reached.rest).run answers).value := by
  rw [reached_eq]
  simp only [roundAt, reach, Plan.run_bind_value]
  cases hgot : ((ph.target.plan g.rest).run answers).value with
  | some hit => simp [Plan.run, hgot]
  | none =>
    dsimp only
    split
    next hskip => simp [hskip, Plan.run_bind_value, Plan.run]
    next hskip => simp [hskip, Plan.run, hgot]

theorem round_value : ((s.round number ph again g).run answers).value =
    (s.roundAt answers number ph again g).ending :=
  Plan.run_bind_value ..

theorem phase_value : ((s.phase number ph again g).run answers).value =
    ((s.goOn number ph (s.roundAt answers number ph again g).ending).run answers).value := by
  rw [phase_eq_round, Plan.run_bind_value, round_value]

/-- How a round ends, case by case. -/
inductive Concludes (s : Scene) (answers : Answers) (number : Nat) (ph : Phase) (again : Bool)
    (g : Growth) : Option Hit → RoundEnd → Prop where
  /-- what must not follow does follow -/
  | forbidden (hit : Hit) (hph : ph.reference.isNegative = true) :
    Concludes s answers number ph again g (some hit) .fail
  | absent (hph : ph.reference.isNegative = true) : Concludes s answers number ph again g none (.next g)
  | hit (hit : Hit) (hph : ph.reference.isNegative = false) :
    Concludes s answers number ph again g (some hit)
      (settle ph { g with pinned := g.pinned || s.pins number ph } hit)
  /-- what must follow does not -/
  | missing (hph : ph.reference.isPositive = true) : Concludes s answers number ph again g none .fail
  | optional (hph : ph.reference.isLookahead = false)
      (hopt : ph.reference.isOptional = true ∨ ph.reference.repeats = true ∧ again = true) :
    Concludes s answers number ph again g none (.next g)
  | breakOff (hph : ph.reference.isLookahead = false) (hpinned : g.pinned = true) :
    Concludes s answers number ph again g none (.stop (breakOff ph g))
  | recovered (m : Match) (hph : ph.reference.isLookahead = false) (hpinned : g.pinned = false)
      (hm : ((s.recover g.rest).run answers).value = some m) :
    Concludes s answers number ph again g none (settle ph g (.node m))
  | lost (hph : ph.reference.isLookahead = false) (hpinned : g.pinned = false) :
    Concludes s answers number ph again g none .fail

theorem commit_value : ((s.commit number ph g).run answers).value =
    { g with pinned := g.pinned || s.pins number ph } := by
  obtain ⟨children, rest, pinned, started⟩ := g
  unfold commit
  cases hpins : s.pins number ph with
  | false => simp [Plan.run]
  | true =>
    cases pinned with
    | false => rfl
    | true => rfl

theorem concludes_miss (hph : ph.reference.isNegative = false) :
    s.Concludes answers number ph again g none ((s.miss ph again g).run answers).value := by
  unfold miss
  split
  next hpositive => exact .missing hpositive
  next hpositive =>
    have hlook : ph.reference.isLookahead = false := by
      simp only [Reference.isNegative, Reference.isPositive, Reference.isLookahead] at *
      cases hl : ph.reference.lookahead with
      | none => rfl
      | positive => simp [hl] at hpositive
      | negative => simp [hl] at hph
    split
    next hopt => exact .optional hlook (.inl hopt)
    next =>
      split
      next hagain => exact .optional hlook (.inr (by simpa using hagain))
      next =>
        split
        next hpinned => exact .breakOff hlook hpinned
        next hpinned =>
          have hpinned : g.pinned = false := Bool.eq_false_iff.2 hpinned
          rw [Plan.run_bind_value]
          cases hm : ((s.recover g.rest).run answers).value with
          | none => exact .lost hlook hpinned
          | some m => exact .recovered m hlook hpinned hm

/-- What can happen in a round. -/
theorem concludes_roundAt (s : Scene) (answers : Answers) (number : Nat) (ph : Phase) (again : Bool)
    (g : Growth) :
    s.Concludes answers number ph again (s.roundAt answers number ph again g).reached
      (s.roundAt answers number ph again g).got (s.roundAt answers number ph again g).ending := by
  simp only [roundAt]
  obtain ⟨g', got⟩ := ((s.reach ph.target g).run answers).value
  unfold conclude
  split
  next hph =>
    cases got with
    | some hit => exact .forbidden hit hph
    | none => exact .absent hph
  next hph =>
    have hph : ph.reference.isNegative = false := Bool.eq_false_iff.2 hph
    cases got with
    | some hit =>
      dsimp only
      rw [Plan.run_bind_value, commit_value]
      exact .hit hit hph
    | none => exact concludes_miss hph

/-- A phase has another round only with less input left. -/
theorem again_shortens (h : (s.roundAt answers number ph again g).ending = .again g') :
    g'.rest.length < g.rest.length := by
  have hreach : (s.roundAt answers number ph again g).reached.rest.length ≤ g.rest.length :=
    (s.reach_shortens ph.target g).run_value answers
  have settle_shortens : ∀ {g₀ : Growth} {hit : Hit}, settle ph g₀ hit = .again g' →
      g'.rest.length < g₀.rest.length := by
    intro g₀ hit hsettle
    unfold settle at hsettle
    split at hsettle
    next hmore =>
      cases hsettle
      exact take_shortens hmore
    next => cases hsettle
  have hround := s.concludes_roundAt answers number ph again g
  generalize (s.roundAt answers number ph again g).reached = g₀ at hround hreach
  generalize (s.roundAt answers number ph again g).got = got at hround
  rw [h] at hround
  generalize hend : RoundEnd.again g' = ending at hround
  cases hround with
  | hit hit hph => exact Nat.lt_of_lt_of_le (settle_shortens hend.symm) hreach
  | recovered m hph hpinned hm => exact Nat.lt_of_lt_of_le (settle_shortens hend.symm) hreach
  | forbidden | absent | missing | optional | breakOff | lost => cases hend

/-- The rounds of an alternative, from phase `number` on. -/
def rounds (s : Scene) (answers : Answers) (number : Nat) (again : Bool) (g : Growth) :
    List Phase → List Round
  | [] => []
  | ph :: phs =>
    s.roundAt answers number ph again g ::
      match h : (s.roundAt answers number ph again g).ending with
      | .again g' => s.rounds answers number true g' (ph :: phs)
      | .next g' => s.rounds answers (number + 1) false g' phs
      | .stop _ | .fail => []
termination_by phs => (phs.length, g.rest.length)
decreasing_by
  · exact Prod.Lex.right _ (again_shortens h)
  · exact Prod.Lex.left _ _ (Nat.lt_succ_self _)

/-- The rounds that follow one of the phase `ph` with the end `ending`. -/
def roundsAfter (s : Scene) (answers : Answers) (number : Nat) (ph : Phase) (phs : List Phase) :
    RoundEnd → List Round
  | .again g => s.rounds answers number true g (ph :: phs)
  | .next g => s.rounds answers (number + 1) false g phs
  | .stop _ | .fail => []

theorem rounds_cons (s : Scene) (answers : Answers) (number : Nat) (again : Bool) (g : Growth)
    (ph : Phase) (phs : List Phase) :
    s.rounds answers number again g (ph :: phs) =
      s.roundAt answers number ph again g ::
        s.roundsAfter answers number ph phs (s.roundAt answers number ph again g).ending := by
  rw [rounds]
  congr 1
  split
  next g' h => rw [h]; rfl
  next g' h => rw [h]; rfl
  next h => rw [h]; rfl
  next h => rw [h]; rfl

/-- Rounds are numbered by the phases they are rounds of. -/
theorem phase_of_mem_rounds {phs : List Phase} {r : Round} (hr : r ∈ s.rounds answers number again g phs) :
    number ≤ r.number ∧ phs[r.number - number]? = some r.phase := by
  induction number, again, g, phs using rounds.induct s answers with
  | case1 number again g => simp [rounds] at hr
  | case2 number again g ph phs ihAgain ihNext =>
    rw [rounds_cons, List.mem_cons] at hr
    rcases hr with rfl | hr
    · exact ⟨Nat.le_refl _, by simp [roundAt]⟩
    · cases hend : (s.roundAt answers number ph again g).ending with
      | again g' =>
        rw [hend] at hr
        exact ihAgain g' hend hr
      | next g' =>
        rw [hend] at hr
        obtain ⟨hle, hphase⟩ := ihNext g' hr
        have hsucc : r.number - number = r.number - (number + 1) + 1 := by omega
        exact ⟨by omega, by rw [hsucc, List.getElem?_cons_succ, hphase]⟩
      | stop g' | fail =>
        rw [hend] at hr
        simp [roundsAfter] at hr

/-- The rounds of an alternative are rounds of its phases. -/
theorem phase_mem_of_mem_rounds {phs : List Phase} {r : Round}
    (hr : r ∈ s.rounds answers number again g phs) : r.phase ∈ phs :=
  List.mem_of_getElem? (phase_of_mem_rounds hr).2

/-- What rounds that begin with the growth `g` come to. -/
def outcome (g : Growth) : List Round → Option Growth
  | [] => some g
  | r :: rs =>
    match r.ending with
    | .again g' | .next g' => outcome g' rs
    | .stop g' => some g'
    | .fail => none

/-- An alternative from a round of its first phase on. -/
def resume (s : Scene) (number : Nat) (again : Bool) (g : Growth) : List Phase → Plan (Option Growth)
  | [] => .done (some g)
  | ph :: phs => (s.phase number ph again g).bind fun e =>
    match e with
    | .next g => s.phases (number + 1) g phs
    | .stop g => .done (some g)
    | .fail => .done none

theorem phases_eq_resume (s : Scene) (number : Nat) (g : Growth) (phs : List Phase) :
    s.phases number g phs = s.resume number false g phs := by
  cases phs with
  | nil => rfl
  | cons ph phs => rfl

theorem resume_value (s : Scene) (answers : Answers) (number : Nat) (again : Bool) (g : Growth)
    (phs : List Phase) :
    ((s.resume number again g phs).run answers).value =
      outcome g (s.rounds answers number again g phs) := by
  induction number, again, g, phs using rounds.induct s answers with
  | case1 number again g => simp [resume, rounds, outcome, Plan.run]
  | case2 number again g ph phs ihAgain ihNext =>
    rw [rounds_cons, outcome, resume, Plan.run_bind_value, phase_value]
    cases hend : (s.roundAt answers number ph again g).ending with
    | again g' =>
      refine Eq.trans ?_ (ihAgain g' hend)
      rw [resume, Plan.run_bind_value]
      rfl
    | next g' =>
      refine Eq.trans ?_ (ihNext g')
      rw [← phases_eq_resume]
      rfl
    | stop g' | fail => rfl

/-- An alternative comes to what its rounds come to. -/
theorem phases_value (s : Scene) (answers : Answers) (number : Nat) (g : Growth) (phs : List Phase) :
    ((s.phases number g phs).run answers).value =
      outcome g (s.rounds answers number false g phs) := by
  rw [phases_eq_resume, resume_value]

/-- Each round of an alternative is the one its answers lead to, and the rounds after it are those that
follow its end. -/
theorem exists_of_rounds_eq {phs : List Phase} {front back : List Round} {r : Round}
    (h : s.rounds answers number again g phs = front ++ r :: back) :
    ∃ number' again' g' ph phs', r = s.roundAt answers number' ph again' g' ∧
      back = s.roundsAfter answers number' ph phs' r.ending ∧
      outcome g (front ++ r :: back) = outcome g' (r :: back) := by
  induction number, again, g, phs using rounds.induct s answers generalizing front with
  | case1 number again g => simp [rounds] at h
  | case2 number again g ph phs ihAgain ihNext =>
    rw [rounds_cons] at h
    cases front with
    | nil =>
      obtain ⟨rfl, hback⟩ := List.cons.inj h
      exact ⟨number, again, g, ph, phs, rfl, hback.symm, rfl⟩
    | cons r' front =>
      obtain ⟨rfl, hrest⟩ := List.cons.inj h
      rw [List.cons_append, outcome]
      cases hend : (s.roundAt answers number ph again g).ending with
      | again g' =>
        rw [hend] at hrest
        exact ihAgain g' hend hrest
      | next g' =>
        rw [hend] at hrest
        exact ihNext g' hrest
      | stop g' | fail =>
        rw [hend] at hrest
        simp [roundsAfter] at hrest

end Run

end Scene

end Grammarian
