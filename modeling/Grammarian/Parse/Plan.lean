import Grammarian.Parse.Draft
import Grammarian.Parse.Event

/-!
# Plans

Matching a rule asks how other rules match, here or further on, and reports what it does. A plan is
such a course of questions and reports, apart from the way the questions are answered; `run` takes
the answers from a function. One plan for a rule therefore serves every way of running it: with a
limit on depth or without, with a guard against endless recursion or without.
-/

namespace Grammarian

/-- A course of questions and reports that comes to a value. -/
inductive Plan (α : Type) where
  | done (value : α)
  | report (event : Event) (next : Plan α)
  /-- asks how `rule` matches at the front of `input` -/
  | ask (rule : String) (input : List Char) (next : Option Match → Plan α)

/-- A value and the events on the way to it. -/
structure Traced (α : Type) where
  value : α
  events : List Event

/-- Answers to the questions of a plan. -/
abbrev Answers := String → List Char → Traced (Option Match)

namespace Plan

/-- One plan after another. -/
def bind {α β : Type} : Plan α → (α → Plan β) → Plan β
  | done value, f => f value
  | report event next, f => report event (next.bind f)
  | ask rule input next, f => ask rule input fun answer => (next answer).bind f

instance : Monad Plan where
  pure := done
  bind := bind

/-- Carries a plan out. -/
def run {α : Type} (answers : Answers) : Plan α → Traced α
  | done value => ⟨value, []⟩
  | report event next =>
    let r := next.run answers
    ⟨r.value, event :: r.events⟩
  | ask rule input next =>
    let a := answers rule input
    let r := (next a.value).run answers
    ⟨r.value, a.events ++ r.events⟩

/-- Carries a plan out with answers that may be missing; then the outcome is missing too. -/
def run? {α : Type} (answers : String → List Char → Option (Traced (Option Match))) :
    Plan α → Option (Traced α)
  | done value => some ⟨value, []⟩
  | report event next =>
    match next.run? answers with
    | some r => some ⟨r.value, event :: r.events⟩
    | none => none
  | ask rule input next =>
    match answers rule input with
    | some a =>
      match (next a.value).run? answers with
      | some r => some ⟨r.value, a.events ++ r.events⟩
      | none => none
    | none => none

@[simp] theorem pure_eq {α : Type} (a : α) : (pure a : Plan α) = done a := rfl

@[simp] theorem bind_eq {α β : Type} (p : Plan α) (f : α → Plan β) : (p >>= f) = p.bind f := rfl

/-- Running one plan after another runs the second on the value of the first. -/
theorem run_bind {α β : Type} (answers : Answers) (p : Plan α) (f : α → Plan β) :
    (p.bind f).run answers =
      ⟨((f (p.run answers).value).run answers).value,
        (p.run answers).events ++ ((f (p.run answers).value).run answers).events⟩ := by
  induction p with
  | done value => simp [bind, run]
  | report event next ih => simp [bind, run, ih]
  | ask rule input next ih => simp [bind, run, ih]

end Plan

end Grammarian
