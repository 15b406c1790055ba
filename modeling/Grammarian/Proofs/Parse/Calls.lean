import Mathlib.Data.List.ProdSigma
import Mathlib.Data.List.Nodup
import Mathlib.Data.List.Perm.Subperm
import Grammarian.Parse.Matching
import Grammarian.Proofs.Parse.Law

/-!
# Calls

What a call of a rule comes to, case by case, and the calls that can be in progress at once. Of these
there are at most as many as there are rules and places: `Orderly.length_le`.
-/

namespace Grammarian.Table

variable {t : Table} {name : String} {e : Entry}

theorem rule_mem_of_entry (h : t.entry? name = some e) : e.rule ∈ t.rules :=
  List.mem_map_of_mem (List.mem_of_find?_eq_some h)

theorem name_of_entry (h : t.entry? name = some e) : e.rule.name = name := by
  simpa using List.find?_some h

/-- The plans of a table make matches that obey a law its rules respect. -/
theorem plan_meets {L : Law} (hL : L.Respected t.rules) (he : t.entry? name = some e) (depth : Nat)
    (input : List Char) :
    (e.plan t.whitespace depth input).Meets (L.contract input) fun found =>
      ∀ m ∈ found, m.Obeys L input ∧
        ∃ g : Growth, g.Obeys L input ∧ m = e.rule.collapse (g.close e.rule input) :=
  e.plan_meets hL (rule_mem_of_entry he) t.whitespace depth input

@[simp] theorem concluded_value (name : String) (depth : Nat) (input : List Char)
    (r : Traced (Option Match)) : (concluded name depth input r).value = r.value := by
  unfold concluded
  split
  next m h => exact h.symm
  next h => exact h.symm

section Cases

variable {maxDepth : Option Nat} {budget depth : Nat} {active : List Call} {input : List Char}

theorem call_undeclared (h : t.entry? name = none) :
    t.call maxDepth budget active depth name input = ⟨none, []⟩ := by
  rw [call.eq_def]
  simp only [h]

/-- A call past the limit on depth fails and says so. -/
theorem call_too_deep (h : t.entry? name = some e) (hdeep : maxDepth.any (· < depth) = true) :
    t.call maxDepth budget active depth name input = ⟨none, [.depthExceeded name depth]⟩ := by
  rw [call.eq_def]
  simp only [h, hdeep, if_true]

/-- A call that is in progress already fails. -/
theorem call_in_progress (h : t.entry? name = some e) (hdeep : ¬ maxDepth.any (· < depth) = true)
    (hactive : (name, input.length) ∈ active) :
    t.call maxDepth budget active depth name input = concluded name depth input ⟨none, []⟩ := by
  have hcontains : active.contains (name, input.length) = true := List.contains_iff_mem.2 hactive
  rw [call.eq_def]
  simp only [h, if_neg hdeep, hcontains, if_true]

/-- Any other call carries out the plan of its rule, in progress itself from then on. -/
theorem call_enter (h : t.entry? name = some e) (hdeep : ¬ maxDepth.any (· < depth) = true)
    (hactive : (name, input.length) ∉ active) :
    t.call maxDepth (budget + 1) active depth name input =
      concluded name depth input ((e.plan t.whitespace depth input).run
        (t.call maxDepth budget ((name, input.length) :: active) (depth + 1))) := by
  have hcontains : ¬ active.contains (name, input.length) = true := fun hc =>
    hactive (List.contains_iff_mem.1 hc)
  rw [call.eq_def]
  simp only [h, if_neg hdeep, if_neg hcontains]

theorem call_out_of_budget (h : t.entry? name = some e) (hdeep : ¬ maxDepth.any (· < depth) = true)
    (hactive : (name, input.length) ∉ active) :
    t.call maxDepth 0 active depth name input = concluded name depth input ⟨none, []⟩ := by
  have hcontains : ¬ active.contains (name, input.length) = true := fun hc =>
    hactive (List.contains_iff_mem.1 hc)
  rw [call.eq_def]
  simp only [h, if_neg hdeep, if_neg hcontains]

/-- A match comes from the plan of the rule, carried out one call further in. -/
theorem exists_run_of_mem_call {m : Match}
    (hm : m ∈ (t.call maxDepth budget active depth name input).value) :
    ∃ e b, t.entry? name = some e ∧ budget = b + 1 ∧
      m ∈ ((e.plan t.whitespace depth input).run
        (t.call maxDepth b ((name, input.length) :: active) (depth + 1))).value := by
  cases he : t.entry? name with
  | none =>
    rw [call_undeclared he] at hm
    cases hm
  | some e =>
    by_cases hdeep : maxDepth.any (· < depth) = true
    · rw [call_too_deep he hdeep] at hm
      cases hm
    · by_cases hactive : (name, input.length) ∈ active
      · rw [call_in_progress he hdeep hactive, concluded_value] at hm
        cases hm
      · cases budget with
        | zero =>
          rw [call_out_of_budget he hdeep hactive, concluded_value] at hm
          cases hm
        | succ b =>
          rw [call_enter he hdeep hactive, concluded_value] at hm
          exact ⟨e, b, rfl, rfl, hm⟩

/-- A call that is in progress already makes no match. -/
theorem not_mem_of_mem_call {m : Match}
    (hm : m ∈ (t.call maxDepth budget active depth name input).value) :
    (name, input.length) ∉ active := by
  intro hactive
  obtain ⟨e, -, he, -⟩ := exists_run_of_mem_call hm
  by_cases hdeep : maxDepth.any (· < depth) = true
  · rw [call_too_deep he hdeep] at hm
    cases hm
  · rw [call_in_progress he hdeep hactive, concluded_value] at hm
    cases hm

end Cases

/-- Every call makes a match that obeys a law the rules of the table respect. -/
theorem call_obeys {L : Law} (hL : L.Respected t.rules) (maxDepth : Option Nat) (budget : Nat)
    (active : List Call) (depth : Nat) (name : String) (input : List Char) :
    ∀ m ∈ (t.call maxDepth budget active depth name input).value, m.Obeys L input := by
  induction budget generalizing active depth name input with
  | zero =>
    intro m hm
    obtain ⟨e, b, -, hb, -⟩ := exists_run_of_mem_call hm
    cases hb
  | succ budget ih =>
    intro m hm
    obtain ⟨e, b, he, hb, hm⟩ := exists_run_of_mem_call hm
    cases hb
    have hplan := plan_meets hL he depth input
    exact (hplan.of_run (fun rule s _ => ih _ _ rule s) m hm).1

end Table

/-- The law that asks for nothing. -/
def Law.free : Law := ⟨fun _ => True, fun _ => True⟩

theorem Law.free_respected (rules : List Rule) : Law.free.Respected rules where
  ofFault _ _ _ _ := ⟨trivial, trivial⟩
  endOfInput := ⟨trivial, trivial⟩
  node _ _ _ _ _ _ _ _ := trivial
  inner _ _ _ _ _ _ := trivial

namespace Table

/-! ## Calls in progress -/

/-- Calls that can be in progress in a text of `n` characters: each is of a rule of the table, at a
place of the text, and no two are the same. -/
structure Orderly (t : Table) (n : Nat) (active : List Call) : Prop where
  nodup : active.Nodup
  declared : ∀ c ∈ active, c.1 ∈ t.rules.map (·.name)
  placed : ∀ c ∈ active, c.2 ≤ n

variable {t : Table} {n : Nat} {active : List Call}

theorem orderly_nil (t : Table) (n : Nat) : t.Orderly n [] := ⟨List.nodup_nil, by simp, by simp⟩

/-- A call that is not in progress yet can join the others. -/
theorem Orderly.cons {name : String} {e : Entry} {place : Nat} (h : t.Orderly n active)
    (he : t.entry? name = some e) (hplace : place ≤ n) (hnew : (name, place) ∉ active) :
    t.Orderly n ((name, place) :: active) where
  nodup := List.nodup_cons.2 ⟨hnew, h.nodup⟩
  declared := by
    refine List.forall_mem_cons.2 ⟨?_, h.declared⟩
    rw [← name_of_entry he]
    exact List.mem_map_of_mem (rule_mem_of_entry he)
  placed := List.forall_mem_cons.2 ⟨hplace, h.placed⟩

/-- No more calls can be in progress than there are rules and places. -/
theorem Orderly.length_le (h : t.Orderly n active) :
    active.length ≤ t.entries.length * (n + 1) := by
  have hsub : active ⊆ (t.rules.map (·.name)) ×ˢ List.range (n + 1) := by
    rintro ⟨name, place⟩ hc
    exact List.pair_mem_product.2
      ⟨h.declared _ hc, List.mem_range.2 (Nat.lt_succ_of_le (h.placed _ hc))⟩
  have hlength := (List.subperm_of_subset h.nodup hsub).length_le
  rw [List.length_product] at hlength
  simpa [rules] using hlength

end Table

end Grammarian
