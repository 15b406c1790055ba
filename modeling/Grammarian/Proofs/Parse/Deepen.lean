import Grammarian.Proofs.Parse.Phases

/-!
# Depth is a label

The depth of a call shows in its events and nowhere else: the plan of a rule further down is its plan
further up with deeper events. What a rule matches, and whether matching it comes to an end, is
therefore the same at every depth.
-/

namespace Grammarian

/-- The event `k` levels further down. -/
def Event.deepen (k : Nat) : Event → Event
  | attempt rule input depth => attempt rule input (depth + k)
  | matched rule text depth => matched rule text (depth + k)
  | failed rule depth => failed rule (depth + k)
  | pinned rule phase depth => pinned rule phase (depth + k)
  | syntaxError rule expected depth => syntaxError rule expected (depth + k)
  | recovering rule target depth => recovering rule target (depth + k)
  | recovered rule skipped depth => recovered rule skipped (depth + k)
  | depthExceeded rule depth => depthExceeded rule (depth + k)

/-- The outcome with its events `k` levels further down. -/
def Traced.deepen {α : Type} (k : Nat) (r : Traced α) : Traced α :=
  ⟨r.value, r.events.map (Event.deepen k)⟩

namespace Plan

variable {α β : Type} {k : Nat}

/-- The plan with its reports `k` levels further down. -/
def deepen (k : Nat) : Plan α → Plan α
  | done value => done value
  | report event next => report (event.deepen k) (next.deepen k)
  | ask rule input next => ask rule input fun answer => (next answer).deepen k

theorem deepen_bind (p : Plan α) (f : α → Plan β) :
    (p.bind f).deepen k = (p.deepen k).bind fun value => (f value).deepen k := by
  induction p with
  | done value => rfl
  | report event next ih => exact congrArg (report (event.deepen k)) ih
  | ask rule input next ih => exact congrArg (ask rule input) (funext ih)

/-- Deeper answers make the outcome of a deeper plan deeper. -/
theorem run?_deepen {answers answers' : String → List Char → Option (Traced (Option Match))}
    (h : ∀ rule input, answers' rule input = (answers rule input).map (Traced.deepen k))
    (p : Plan α) : (p.deepen k).run? answers' = (p.run? answers).map (Traced.deepen k) := by
  induction p with
  | done value => rfl
  | report event next ih =>
    simp only [deepen, run?, ih]
    cases next.run? answers with
    | none => rfl
    | some r => rfl
  | ask rule input next ih =>
    simp only [deepen, run?, h]
    cases answers rule input with
    | none => rfl
    | some a =>
      simp only [Option.map_some, Traced.deepen, ih]
      cases (next a.value).run? answers with
      | none => rfl
      | some r => simp [Traced.deepen]

end Plan

open Plan

theorem Target.deepen_plan (target : Target) (input : List Char) (k : Nat) :
    (target.plan input).deepen k = target.plan input := by
  cases target with
  | rule name | endOfInput | literal value | pattern p => rfl

theorem deepen_skipWhitespace (whitespace : String) (g : Growth) (k : Nat) :
    (skipWhitespace whitespace g).deepen k = skipWhitespace whitespace g := by
  induction h : g.rest.length using Nat.strongRecOn generalizing g with
  | ind n ih =>
    rw [skipWhitespace]
    split
    · rfl
    · refine congrArg (ask whitespace g.rest) (funext fun answer => ?_)
      cases answer with
      | none => rfl
      | some m =>
        dsimp only
        split
        next hlt => exact ih _ (h ▸ hlt) (g.add m) rfl
        next => rfl

namespace Scene

/-- The surroundings of a call `k` levels further down. -/
def deepen (k : Nat) (s : Scene) : Scene := { s with depth := s.depth + k }

theorem deepen_reach (s : Scene) (target : Target) (g : Growth) (k : Nat) :
    (s.reach target g).deepen k = (s.deepen k).reach target g := by
  rw [reach, reach, deepen_bind, target.deepen_plan]
  congr 1
  funext got
  cases got with
  | some hit => rfl
  | none =>
    by_cases hskip : s.rule.skipsWhitespace
    · have hskip' : (s.deepen k).rule.skipsWhitespace = true := hskip
      simp only [hskip, hskip', if_true, deepen_bind, deepen_skipWhitespace, target.deepen_plan]
      rfl
    · have hskip' : ¬ (s.deepen k).rule.skipsWhitespace = true := hskip
      simp only [if_neg hskip, if_neg hskip']
      rfl

theorem deepen_resumption (target : String) (input : List Char) (k : Nat) :
    (resumption target input).deepen k = resumption target input := by
  induction input with
  | nil => rfl
  | cons c cs ih =>
    refine congrArg (ask target (c :: cs)) (funext fun answer => ?_)
    dsimp only
    split
    · rfl
    · exact ih

theorem deepen_recover (s : Scene) (input : List Char) (k : Nat) :
    (s.recover input).deepen k = (s.deepen k).recover input := by
  have hdepth : s.depth + 1 + k = s.depth + k + 1 := by omega
  cases hto : s.rule.recoverTo with
  | none => simp [recover, hto, deepen, Plan.deepen]
  | some target =>
    cases input with
    | nil => simp [recover, hto, deepen, Plan.deepen]
    | cons c cs =>
      simp only [recover, hto, deepen, Plan.deepen]
      congr 1
      funext answer
      split
      · rfl
      · simp only [Plan.deepen, deepen_bind, deepen_resumption, Event.deepen, hdepth]
        congr 2
        funext found
        cases found with
        | none => rfl
        | some rest => simp [Plan.deepen, Event.deepen, hdepth]

theorem deepen_commit (s : Scene) (number : Nat) (ph : Phase) (g : Growth) (k : Nat) :
    (s.commit number ph g).deepen k = (s.deepen k).commit number ph g := by
  have hpins : (s.deepen k).pins number ph = s.pins number ph := rfl
  simp only [commit, hpins]
  split
  · rfl
  · rfl

theorem deepen_afterMiss (s : Scene) (number : Nat) (ph : Phase) (again : Bool) (g : Growth) (k : Nat)
    (hnext : ∀ m : Match, (s.afterHit number ph g (.node m)).deepen k =
      (s.deepen k).afterHit number ph g (.node m)) :
    (s.afterMiss number ph again g).deepen k = (s.deepen k).afterMiss number ph again g := by
  unfold afterMiss
  split
  · rfl
  · split
    · rfl
    · split
      · rfl
      · split
        · rfl
        · rw [deepen_bind, deepen_recover]
          congr 1
          funext recovered
          cases recovered with
          | none => rfl
          | some m => exact hnext m

theorem deepen_phase (s : Scene) (number : Nat) (ph : Phase) (again : Bool) (g : Growth) (k : Nat) :
    (s.phase number ph again g).deepen k = (s.deepen k).phase number ph again g := by
  induction h : g.rest.length using Nat.strongRecOn generalizing again g with
  | ind n ih =>
    have hnext : ∀ (g' : Growth) (hit : Hit), g'.rest.length ≤ n →
        (s.afterHit number ph g' hit).deepen k = (s.deepen k).afterHit number ph g' hit := by
      intro g' hit hle
      unfold afterHit
      split
      next hmore => exact ih _ (Nat.lt_of_lt_of_le (take_shortens hmore) hle) true _ rfl
      next => rfl
    rw [phase_eq, phase_eq, deepen_bind, deepen_reach]
    refine ((s.deepen k).reach_shortens ph.target g).bind_congr ?_
    rintro ⟨g', got⟩ hle
    replace hle : g'.rest.length ≤ n := h ▸ hle
    dsimp only
    split
    · rfl
    · cases got with
      | some hit =>
        dsimp only
        rw [deepen_bind, deepen_commit]
        refine ((s.deepen k).commit_keeps_rest number ph g').bind_congr fun g'' hrest => ?_
        exact hnext g'' hit (hrest ▸ hle)
      | none => exact s.deepen_afterMiss number ph again g' k fun m => hnext g' (.node m) hle

theorem deepen_phases (s : Scene) (number : Nat) (g : Growth) (phs : List Phase) (k : Nat) :
    (s.phases number g phs).deepen k = (s.deepen k).phases number g phs := by
  induction phs generalizing number g with
  | nil => rfl
  | cons ph phs ih =>
    rw [phases, phases, deepen_bind, deepen_phase]
    congr 1
    funext e
    cases e with
    | next g' => exact ih (number + 1) g'
    | stop g' | fail => rfl

theorem deepen_alternatives (s : Scene) (input : List Char) (alts : List (List Phase)) (k : Nat) :
    (s.alternatives input alts).deepen k = (s.deepen k).alternatives input alts := by
  induction alts with
  | nil => rfl
  | cons phs alts ih =>
    have halt : (s.alternative input phs).deepen k = (s.deepen k).alternative input phs := by
      rw [alternative, alternative, deepen_bind, deepen_phases]
      congr 1
      funext found
      cases found with
      | none | some g => rfl
    rw [alternatives, alternatives, deepen_bind, halt]
    congr 1
    funext found
    cases found with
    | none => exact ih
    | some m => rfl

end Scene

/-- The plan of a rule `k` levels further down is its plan with deeper reports. -/
theorem Table.Entry.deepen_plan (e : Table.Entry) (whitespace : String) (depth : Nat)
    (input : List Char) (k : Nat) :
    (e.plan whitespace depth input).deepen k = e.plan whitespace (depth + k) input := by
  rw [plan, plan, deepen_bind, Scene.deepen_alternatives]
  rfl

end Grammarian
