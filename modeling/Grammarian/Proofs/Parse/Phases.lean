import Grammarian.Parse.RulePlan
import Grammarian.Proofs.Parse.Contract

/-!
# The loop over a phase

The definition of `Scene.phase` goes on only while the input left gets shorter, so that it ends whatever
the answers are. This is no further condition: a phase repeats only when its last match consumed
something, and white space is taken up only from the front of what is left. `phase_eq` gives the loop
without the check.
-/

namespace Grammarian

/-- What is left of the input after a hit. -/
def Hit.rest (input : List Char) : Hit → List Char
  | nothing => input
  | text rest => rest
  | node m => m.rest

/-- The contract that promises nothing and allows every question. -/
def Contract.any : Contract := ⟨fun _ _ => True, fun _ _ _ => True⟩

/-- A plan may go on differently after values that the first plan never comes to. -/
theorem Plan.Meets.bind_congr {α β : Type} {p : Plan α} {f f' : α → Plan β} {post : α → Prop}
    (h : p.Meets .any post) (hf : ∀ value, post value → f value = f' value) :
    p.bind f = p.bind f' := by
  induction p with
  | done value => exact hf value h
  | report event next ih => exact congrArg (report event) (ih h)
  | ask rule input next ih =>
    exact congrArg (ask rule input) (funext fun answer => ih answer (h.2 answer trivial))

/-- What holds whatever the answers are holds with those of a contract as well. -/
theorem Plan.Meets.and_any {α : Type} {p : Plan α} {k : Contract} {post post' : α → Prop}
    (h : p.Meets k post) (h' : p.Meets .any post') :
    p.Meets k fun value => post value ∧ post' value := by
  induction p with
  | done value => exact ⟨h, h'⟩
  | report event next ih => exact ih h h'
  | ask rule input next ih =>
    exact ⟨h.1, fun answer ha => ih answer (h.2 answer ha) (h'.2 answer trivial)⟩

/-- White space is added match by match: what a growth has and every further match preserves holds of the
growth with all white space taken. -/
theorem skipWhitespace_preserves {whitespace : String} {k : Contract} {P : Growth → Prop}
    (hasks : ∀ g, P g → k.asks whitespace g.rest)
    (hadd : ∀ g m, P g → k.answers whitespace g.rest (some m) → m.rest.length < g.rest.length →
      P (g.add m)) {g : Growth} (hg : P g) : (skipWhitespace whitespace g).Meets k P := by
  induction h : g.rest.length using Nat.strongRecOn generalizing g with
  | ind n ih =>
    rw [skipWhitespace]
    split
    · exact hg
    · refine ⟨hasks g hg, fun answer hanswer => ?_⟩
      cases answer with
      | none => exact hg
      | some m =>
        dsimp only
        split
        next hlt => exact ih _ (h ▸ hlt) (hadd g m hg hanswer hlt) rfl
        next => exact hg

theorem skipWhitespace_shortens (whitespace : String) (g : Growth) :
    (skipWhitespace whitespace g).Meets .any fun g' => g'.rest.length ≤ g.rest.length :=
  skipWhitespace_preserves (fun _ _ => trivial)
    (fun _ _ hle _ hlt => Nat.le_trans (Nat.le_of_lt hlt) hle) (Nat.le_refl _)

namespace Scene

theorem reach_shortens (s : Scene) (target : Target) (g : Growth) :
    (s.reach target g).Meets .any fun r => r.1.rest.length ≤ g.rest.length := by
  have target_any : ∀ input, (target.plan input).Meets .any fun _ => True := by
    intro input
    cases target with
    | rule name => exact ⟨trivial, fun _ _ => trivial⟩
    | literal value | pattern p | endOfInput => trivial
  rw [reach]
  refine (target_any g.rest).bind fun got _ => ?_
  split
  · exact Nat.le_refl _
  · split
    · refine (skipWhitespace_shortens s.whitespace g).bind fun g' hle => ?_
      exact (target_any g'.rest).bind fun got _ => hle
    · exact Nat.le_refl _

theorem take_shortens {ph : Phase} {g : Growth} {hit : Hit} (h : (take ph g hit).2 = true) :
    (take ph g hit).1.rest.length < g.rest.length := by
  cases hit with
  | nothing => cases h
  | text rest | node m =>
    simp only [take] at h ⊢
    split at h
    · cases h
    · simp only [Bool.and_eq_true, decide_eq_true_eq] at h
      rw [if_neg ‹_›]
      exact h.2

theorem commit_keeps_rest (s : Scene) (number : Nat) (ph : Phase) (g : Growth) :
    (s.commit number ph g).Meets .any fun g' => g'.rest = g.rest := by
  unfold commit
  split
  · rfl
  · rfl

/-- What follows a hit: the phase once more, or its end. -/
def afterHit (s : Scene) (number : Nat) (ph : Phase) (g : Growth) (hit : Hit) : Plan PhaseEnd :=
  if (take ph g hit).2 then s.phase number ph true (take ph g hit).1
  else .done (.next (take ph g hit).1)

/-- What follows when the target of a phase does not match. -/
def afterMiss (s : Scene) (number : Nat) (ph : Phase) (again : Bool) (g : Growth) : Plan PhaseEnd :=
  if ph.reference.isPositive then .done .fail
  else if ph.reference.isOptional then .done (.next g)
  else if ph.reference.repeats && again then .done (.next g)
  else if g.pinned then
    .report (.syntaxError s.rule.name ph.reference.name s.depth) (.done (.stop (breakOff ph g)))
  else (s.recover g.rest).bind fun recovered =>
    match recovered with
    | some m => s.afterHit number ph g (.node m)
    | none => .done .fail

/-- The loop over a phase without a check that it ends. -/
theorem phase_eq (s : Scene) (number : Nat) (ph : Phase) (again : Bool) (g : Growth) :
    s.phase number ph again g = (s.reach ph.target g).bind fun r =>
      if ph.reference.isNegative then .done (if r.2.isSome then .fail else .next r.1)
      else
        match r.2 with
        | some hit => (s.commit number ph r.1).bind fun g' => s.afterHit number ph g' hit
        | none => s.afterMiss number ph again r.1 := by
  rw [phase]
  refine (s.reach_shortens ph.target g).bind_congr ?_
  rintro ⟨g', got⟩ hle
  have goOn : ∀ (g'' : Growth) (hit : Hit), g''.rest.length ≤ g.rest.length →
      (if (take ph g'' hit).2 && decide ((take ph g'' hit).1.rest.length < g.rest.length) then
        s.phase number ph true (take ph g'' hit).1
      else .done (.next (take ph g'' hit).1)) = s.afterHit number ph g'' hit := by
    intro g'' hit hle
    have hif : ((take ph g'' hit).2 && decide ((take ph g'' hit).1.rest.length < g.rest.length)) =
        (take ph g'' hit).2 := by
      cases h : (take ph g'' hit).2 with
      | false => rfl
      | true => simpa using Nat.lt_of_lt_of_le (take_shortens h) hle
    rw [hif, afterHit]
  cases got with
  | some hit =>
    simp only [commit, Option.isSome_some, if_true]
    split
    · rfl
    · split
      · simpa [Plan.bind] using goOn { g' with pinned := true } hit hle
      · simpa [Plan.bind] using goOn g' hit hle
  | none =>
    simp only [afterMiss]
    congr 6
    funext recovered
    cases recovered with
    | some m => exact goOn g' (.node m) hle
    | none => rfl

end Scene

end Grammarian
