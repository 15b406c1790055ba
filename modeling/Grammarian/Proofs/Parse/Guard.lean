import Grammarian.Proofs.Parse.Calls
import Grammarian.Proofs.Parse.Deepen

/-!
# The guard against endless recursion

Matching without the guard is given by an evaluator with fuel, which has no answer while the fuel does
not suffice. Where it has one, the guarded match has the same: a call inside itself, at the place where
it began, would need the fuel of the call around it over again, so no run that comes to an end has one,
and the guard has nothing to fail.
-/

namespace Grammarian

open Plan

theorem Plan.run?_mono {α : Type}
    {answers answers' : String → List Char → Option (Traced (Option Match))}
    (h : ∀ rule input a, answers rule input = some a → answers' rule input = some a) {p : Plan α}
    {r : Traced α} (hr : p.run? answers = some r) : p.run? answers' = some r := by
  induction p generalizing r with
  | done value => exact hr
  | report event next ih =>
    obtain ⟨s, hs, rfl⟩ := run?_report_eq_some hr
    simp only [run?, ih hs]
  | ask rule input next ih =>
    obtain ⟨a, s, ha, hs, rfl⟩ := run?_ask_eq_some hr
    simp only [run?, h rule input a ha, ih a.value hs]

namespace Table

variable {t : Table} {fuel depth : Nat} {name : String} {input : List Char}
  {r : Traced (Option Match)}

/-- Matches rule `name` at the front of `input` with neither guard nor limit. There is no answer when
more than `fuel` calls would have to be nested. -/
def unguarded? (t : Table) : (fuel depth : Nat) → String → List Char → Option (Traced (Option Match))
  | 0, _, _, _ => none
  | fuel + 1, depth, name, input =>
    match t.entry? name with
    | none => some ⟨none, []⟩
    | some e =>
      ((e.plan t.whitespace depth input).run? (t.unguarded? fuel (depth + 1))).map
        (concluded name depth input)

theorem unguarded?_undeclared (h : t.entry? name = none) :
    t.unguarded? (fuel + 1) depth name input = some ⟨none, []⟩ := by
  simp only [unguarded?, h]

theorem unguarded?_declared {e : Entry} (h : t.entry? name = some e) :
    t.unguarded? (fuel + 1) depth name input =
      ((e.plan t.whitespace depth input).run? (t.unguarded? fuel (depth + 1))).map
        (concluded name depth input) := by
  simp only [unguarded?, h]

/-- More fuel does not change an answer. -/
theorem unguarded?_succ (h : t.unguarded? fuel depth name input = some r) :
    t.unguarded? (fuel + 1) depth name input = some r := by
  induction fuel generalizing depth name input r with
  | zero => cases h
  | succ fuel ih =>
    cases he : t.entry? name with
    | none =>
      rw [unguarded?_undeclared he] at h ⊢
      exact h
    | some e =>
      rw [unguarded?_declared he] at h ⊢
      obtain ⟨q, hq, rfl⟩ := Option.map_eq_some_iff.1 h
      rw [run?_mono (fun rule s a ha => ih ha) hq]
      rfl

theorem concluded_deepen (k : Nat) (q : Traced (Option Match)) :
    concluded name (depth + k) input (q.deepen k) = (concluded name depth input q).deepen k := by
  obtain ⟨value, events⟩ := q
  cases value with
  | none => simp [concluded, Traced.deepen, Event.deepen]
  | some m => simp [concluded, Traced.deepen, Event.deepen]

/-- Further down the answer is the same with deeper events. -/
theorem unguarded?_deepen (t : Table) (fuel depth : Nat) (name : String) (input : List Char)
    (k : Nat) :
    t.unguarded? fuel (depth + k) name input =
      (t.unguarded? fuel depth name input).map (Traced.deepen k) := by
  induction fuel generalizing depth name input with
  | zero => rfl
  | succ fuel ih =>
    cases he : t.entry? name with
    | none =>
      rw [unguarded?_undeclared he, unguarded?_undeclared he]
      rfl
    | some e =>
      have hanswers : ∀ rule s, t.unguarded? fuel (depth + k + 1) rule s =
          (t.unguarded? fuel (depth + 1) rule s).map (Traced.deepen k) := by
        intro rule s
        rw [← ih (depth + 1), Nat.add_right_comm]
      rw [unguarded?_declared he, unguarded?_declared he, ← e.deepen_plan,
        run?_deepen hanswers, Option.map_map, Option.map_map]
      congr 1
      funext q
      exact concluded_deepen k q

/-- Whether the fuel suffices does not depend on the depth. -/
theorem unguarded?_eq_none_iff (depth' : Nat) :
    t.unguarded? fuel depth name input = none ↔ t.unguarded? fuel depth' name input = none := by
  have h := unguarded?_deepen t fuel 0 name input
  rw [← Nat.zero_add depth, ← Nat.zero_add depth', h depth, h depth', Option.map_eq_none_iff,
    Option.map_eq_none_iff]

theorem unguarded?_obeys {L : Law} (hL : L.Respected t.rules)
    (h : t.unguarded? fuel depth name input = some r) : ∀ m ∈ r.value, m.Obeys L input := by
  induction fuel generalizing depth name input r with
  | zero => cases h
  | succ fuel ih =>
    cases he : t.entry? name with
    | none =>
      rw [unguarded?_undeclared he] at h
      cases h
      rintro m ⟨⟩
    | some e =>
      rw [unguarded?_declared he] at h
      obtain ⟨q, hq, rfl⟩ := Option.map_eq_some_iff.1 h
      rw [concluded_value]
      have hplan := plan_meets hL he depth input
      intro m hm
      exact (hplan.of_run? (fun rule s a _ ha => ih ha) hq m hm).1

/-- None of the calls comes to an end with this fuel, at any depth. The calls are given by rule and
place; the place tells the text, since all texts are suffixes of one, `whole`. -/
def Endless (t : Table) (whole : List Char) (fuel : Nat) (active : List Call) : Prop :=
  ∀ c ∈ active, ∀ s, s <:+ whole → s.length = c.2 → ∀ depth, t.unguarded? fuel depth c.1 s = none

theorem Endless.pred {whole : List Char} {active : List Call}
    (h : t.Endless whole (fuel + 1) active) : t.Endless whole fuel active := by
  intro c hc s hs hplace depth
  by_contra hsome
  obtain ⟨r, hr⟩ := Option.ne_none_iff_exists'.1 hsome
  have hmore := unguarded?_succ hr
  rw [h c hc s hs hplace depth] at hmore
  cases hmore

theorem Endless.cons {whole : List Char} {active : List Call} (h : t.Endless whole fuel active)
    (hinput : input <:+ whole) (hnone : t.unguarded? fuel depth name input = none) :
    t.Endless whole fuel ((name, input.length) :: active) := by
  intro c hc s hs hplace depth'
  rcases List.mem_cons.1 hc with rfl | hc
  · have hsuffix : s <:+ input := List.suffix_of_suffix_length_le hs hinput hplace.le
    rw [hsuffix.eq_of_length hplace]
    exact (unguarded?_eq_none_iff depth').1 hnone
  · exact h c hc s hs hplace depth'

/-- With calls in progress that the fuel does not suffice for, a guarded call has the answer of the
unguarded one. The induction is on the fuel: when less of it suffices for the call itself there is
nothing to do, and otherwise the call joins those the remaining fuel does not suffice for. -/
theorem call_eq_of_endless {whole : List Char} {active : List Call} {budget : Nat}
    (hinput : input <:+ whole) (horder : t.Orderly whole.length active)
    (hroom : t.entries.length * (whole.length + 1) < budget + active.length)
    (hactive : t.Endless whole fuel active) (h : t.unguarded? fuel depth name input = some r) :
    t.call none budget active depth name input = r := by
  induction fuel generalizing depth name input r budget active with
  | zero => cases h
  | succ fuel ih =>
    cases he : t.entry? name with
    | none =>
      rw [unguarded?_undeclared he] at h
      cases h
      exact call_undeclared he
    | some e =>
      -- If less fuel suffices, the answer is the same and the calls in progress are endless for it too.
      cases hless : t.unguarded? fuel depth name input with
      | some r' =>
        rw [unguarded?_succ hless] at h
        cases h
        exact ih hinput horder hroom hactive.pred hless
      | none =>
        -- A call in progress has no answer with all of the fuel, but this one has.
        have hnew : (name, input.length) ∉ active := by
          intro hc
          rw [hactive _ hc input hinput rfl depth] at h
          cases h
        have horder' := horder.cons he hinput.length_le hnew
        have hlength := horder'.length_le
        rw [List.length_cons] at hlength
        obtain ⟨b, rfl⟩ : ∃ b, budget = b + 1 := ⟨budget - 1, by omega⟩
        rw [unguarded?_declared he] at h
        obtain ⟨q, hq, rfl⟩ := Option.map_eq_some_iff.1 h
        rw [call_enter he (by simp) hnew]
        congr 1
        have hplan := plan_meets (Law.free_respected t.rules) he depth input
        refine hplan.run_eq_of_run? ?_ hq
        intro rule s a hs ha
        refine ⟨unguarded?_obeys (Law.free_respected t.rules) ha, ?_⟩
        have hroom' : t.entries.length * (whole.length + 1) <
            b + ((name, input.length) :: active).length := by
          rw [List.length_cons]
          omega
        exact ih (List.IsSuffix.trans hs hinput) horder' hroom' (hactive.pred.cons hinput hless) ha

/-- **The guard never changes a match that comes to an end.** Where matching without the guard has an
answer, a match or none, at whatever depth, the guarded match that begins with no call in progress has
the same answer and the same events. -/
theorem call_eq_of_unguarded? (t : Table) (fuel depth : Nat) (name : String) (input : List Char)
    (r : Traced (Option Match)) (h : t.unguarded? fuel depth name input = some r) :
    t.call none (t.budgetFor input) [] depth name input = r := by
  refine call_eq_of_endless List.suffix_rfl (t.orderly_nil _) ?_ ?_ h
  · exact Nat.lt_succ_self _
  · rintro c ⟨⟩

/-- A grammar of nested lists, in which a repeated rule calls itself further on. -/
def nested : Table where
  entries :=
    [{ name := "List"
       alternatives := [[.literal "(", .reference (.ofText "List*"), .reference (.ofText "@Close")],
         [.literal "x"]]
       implicitWhitespace := some true },
      { name := "Close", alternatives := [[.literal ")"]] },
      { name := "WS", alternatives := [[.literal " "]] }].map fun r => ⟨r, r.phases⟩
  whitespace := "WS"

theorem nested_call_eq_unguarded : ∃ r, nested.unguarded? 4 0 "List" ['(', 'x', ' ', ')'] = some r ∧
    nested.call none (nested.budgetFor ['(', 'x', ' ', ')']) [] 0 "List" ['(', 'x', ' ', ')'] = r := by
  have hsome : (nested.unguarded? 4 0 "List" ['(', 'x', ' ', ')']).isSome = true := by decide +kernel
  obtain ⟨r, h⟩ := Option.isSome_iff_exists.1 hsome
  exact ⟨r, h, call_eq_of_unguarded? nested 4 0 "List" ['(', 'x', ' ', ')'] r h⟩

end Table

end Grammarian
