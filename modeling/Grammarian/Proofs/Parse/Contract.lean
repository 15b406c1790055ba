import Mathlib.Data.List.Basic
import Grammarian.Parse.Plan

/-!
# Contracts of plans

A contract says which questions a plan may ask and which answers it can count on. A plan meets it with
a postcondition when it keeps to these questions and, whatever answers of that kind it gets, comes to a
value that fulfils the postcondition. What a plan meets is computed along its shape, so that
`meets_bind` splits the obligation for one plan after another, and it carries over to every way of
carrying the plan out.
-/

namespace Grammarian

/-- Which questions may be asked, and which answers they get. -/
structure Contract where
  asks : (rule : String) → (input : List Char) → Prop
  answers : (rule : String) → (input : List Char) → Option Match → Prop

namespace Plan

variable {α β : Type} {k : Contract} {post post' : α → Prop} {p : Plan α}

/-- The plan keeps to the questions of the contract, and with its answers comes to a value with
`post`. -/
def Meets (k : Contract) (post : α → Prop) : Plan α → Prop
  | done value => post value
  | report _ next => next.Meets k post
  | ask rule input next =>
    k.asks rule input ∧ ∀ answer, k.answers rule input answer → (next answer).Meets k post

@[simp] theorem meets_done {value : α} : (done value).Meets k post ↔ post value := Iff.rfl

@[simp] theorem meets_report {event : Event} :
    (report event p).Meets k post ↔ p.Meets k post := Iff.rfl

@[simp] theorem meets_ask {rule : String} {input : List Char} {next : Option Match → Plan α} :
    (ask rule input next).Meets k post ↔
      k.asks rule input ∧ ∀ answer, k.answers rule input answer → (next answer).Meets k post :=
  Iff.rfl

/-- A bind meets a postcondition if its first part meets that the second does. -/
theorem meets_bind {f : α → Plan β} {post : β → Prop} :
    (p.bind f).Meets k post ↔ p.Meets k fun value => (f value).Meets k post := by
  induction p with
  | done value => exact Iff.rfl
  | report event next ih => exact ih
  | ask rule input next ih =>
    simp only [Plan.bind, meets_ask]
    exact and_congr Iff.rfl (forall_congr' fun answer => imp_congr Iff.rfl (ih answer))

/-- What a plan meets may be said with less. -/
theorem Meets.mono (h : p.Meets k post) (himp : ∀ value, post value → post' value) :
    p.Meets k post' := by
  induction p with
  | done value => exact himp value h
  | report event next ih => exact ih h
  | ask rule input next ih => exact ⟨h.1, fun answer ha => ih answer (h.2 answer ha)⟩

/-- The rule for sequences: the second plan has to come to its postcondition from every value that
the first may come to. -/
theorem Meets.bind {f : α → Plan β} {post : α → Prop} {post' : β → Prop} (h : p.Meets k post)
    (hf : ∀ value, post value → (f value).Meets k post') : (p.bind f).Meets k post' :=
  meets_bind.2 (h.mono hf)

/-! ## Carrying out -/

/-- With answers that are always there, a run always ends. -/
theorem run?_some (answers : Answers) (p : Plan α) :
    p.run? (fun rule input => some (answers rule input)) = some (p.run answers) := by
  induction p with
  | done value => rfl
  | report event next ih => simp only [run?, run, ih]
  | ask rule input next ih => simp only [run?, run, ih]

theorem run?_ask_eq_some {answers : String → List Char → Option (Traced (Option Match))}
    {rule : String} {input : List Char} {next : Option Match → Plan α} {r : Traced α}
    (h : (ask rule input next).run? answers = some r) :
    ∃ a s, answers rule input = some a ∧ (next a.value).run? answers = some s ∧
      r = ⟨s.value, a.events ++ s.events⟩ := by
  simp only [run?] at h
  split at h
  next a ha =>
    split at h
    next s hs => exact ⟨a, s, ha, hs, (Option.some.inj h).symm⟩
    next => cases h
  next => cases h

theorem run?_report_eq_some {answers : String → List Char → Option (Traced (Option Match))}
    {event : Event} {r : Traced α} (h : (report event p).run? answers = some r) :
    ∃ s, p.run? answers = some s ∧ r = ⟨s.value, event :: s.events⟩ := by
  simp only [run?] at h
  split at h
  next s hs => exact ⟨s, hs, (Option.some.inj h).symm⟩
  next => cases h

section Answers

variable {answers : Answers} {answers? : String → List Char → Option (Traced (Option Match))}

/-- The postcondition holds of what the plan comes to when its answers keep to the contract. -/
theorem Meets.of_run? (h : p.Meets k post)
    (hk : ∀ rule input a, k.asks rule input → answers? rule input = some a →
      k.answers rule input a.value)
    {r : Traced α} (hr : p.run? answers? = some r) : post r.value := by
  induction p generalizing r with
  | done value => cases hr; exact h
  | report event next ih =>
    obtain ⟨s, hs, rfl⟩ := run?_report_eq_some hr
    exact ih (r := s) h hs
  | ask rule input next ih =>
    obtain ⟨a, s, ha, hs, rfl⟩ := run?_ask_eq_some hr
    exact ih a.value (r := s) (h.2 a.value (hk rule input a h.1 ha)) hs

/-- A run whose answers keep the contract ends in the postcondition. -/
theorem Meets.of_run (h : p.Meets k post)
    (hk : ∀ rule input, k.asks rule input → k.answers rule input (answers rule input).value) :
    post (p.run answers).value := by
  refine h.of_run? ?_ (run?_some answers p)
  intro rule input a hask ha
  cases ha
  exact hk rule input hask

/-- Answers that may be missing determine the outcome of a plan as soon as those it asks for are
there: any answers that agree with them lead to it. -/
theorem Meets.run_eq_of_run? (h : p.Meets k post)
    (hk : ∀ rule input a, k.asks rule input → answers? rule input = some a →
      k.answers rule input a.value ∧ answers rule input = a)
    {r : Traced α} (hr : p.run? answers? = some r) : p.run answers = r := by
  induction p generalizing r with
  | done value => cases hr; rfl
  | report event next ih =>
    obtain ⟨s, hs, rfl⟩ := run?_report_eq_some hr
    simp only [run, ih h hs]
  | ask rule input next ih =>
    obtain ⟨a, s, ha, hs, rfl⟩ := run?_ask_eq_some hr
    obtain ⟨hgood, heq⟩ := hk rule input a h.1 ha
    simp only [run, heq, ih a.value (h.2 a.value hgood) hs]

/-- Only the answers to questions of the contract matter. -/
theorem Meets.run_congr {answers' : Answers} (h : p.Meets k post)
    (hk : ∀ rule input, k.asks rule input → k.answers rule input (answers rule input).value)
    (heq : ∀ rule input, k.asks rule input → answers' rule input = answers rule input) :
    p.run answers' = p.run answers := by
  refine h.run_eq_of_run? ?_ (run?_some answers p)
  intro rule input a hask ha
  cases ha
  exact ⟨hk rule input hask, heq rule input hask⟩

/-- Whatever answers it gets, the plan asks for rules with `P` only. -/
def AsksOnly (P : String → Prop) (p : Plan α) : Prop :=
  p.Meets ⟨fun rule _ => P rule, fun _ _ _ => True⟩ fun _ => True

/-- What a plan asks may be said with less. -/
theorem AsksOnly.mono {P Q : String → Prop} (h : p.AsksOnly P) (himp : ∀ name, P name → Q name) :
    p.AsksOnly Q := by
  induction p with
  | done value => trivial
  | report event next ih => exact ih h
  | ask rule input next ih => exact ⟨himp rule h.1, fun answer _ => ih answer (h.2 answer trivial)⟩

theorem asksOnly_true (p : Plan α) : p.AsksOnly fun _ => True := by
  induction p with
  | done value => trivial
  | report event next ih => exact ih
  | ask rule input next ih => exact ⟨trivial, fun answer _ => ih answer⟩

/-- What a plan never asks for need not be allowed. -/
theorem Meets.asking {P : String → Prop} (h : p.Meets k post) (hasks : p.AsksOnly P) :
    p.Meets { k with asks := fun rule input => k.asks rule input ∧ P rule } post := by
  induction p with
  | done value => exact h
  | report event next ih => exact ih h hasks
  | ask rule input next ih =>
    exact ⟨⟨h.1, hasks.1⟩, fun answer ha => ih answer (h.2 answer ha) (hasks.2 answer trivial)⟩

/-- The questions a plan asks when it gets these answers. -/
def asked (answers : Answers) : Plan α → List (String × List Char)
  | done _ => []
  | report _ next => next.asked answers
  | ask rule input next => (rule, input) :: (next (answers rule input).value).asked answers

/-- A run whose answers keep the contract asks only what the contract admits. -/
theorem Meets.asked (h : p.Meets k post)
    (hk : ∀ rule input, k.asks rule input → k.answers rule input (answers rule input).value) :
    ∀ q ∈ p.asked answers, k.asks q.1 q.2 := by
  induction p with
  | done value => simp [Plan.asked]
  | report event next ih => exact ih h
  | ask rule input next ih =>
    exact List.forall_mem_cons.2 ⟨h.1, ih _ (h.2 _ (hk rule input h.1))⟩

end Answers

end Plan

end Grammarian
