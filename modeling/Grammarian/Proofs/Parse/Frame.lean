import Mathlib.Data.Finset.Prod
import Grammarian.Proofs.Parse.Calls
import Grammarian.Proofs.Parse.Deepen

/-!
# What a call depends on

A call asks about suffixes of its text only, so the calls in progress further back have no part in it, and
neither have rules that it has no way to ask for: `call_congr`. Nor does the depth, as long as there is no
limit on it. Together, a call further on than all calls in progress comes to what a match begun afresh comes
to.
-/

namespace Grammarian

/-- Reporting at another depth has no bearing on the value. -/
theorem Plan.run_deepen_value {α : Type} (answers : Answers) (k : Nat) (p : Plan α) :
    ((p.deepen k).run answers).value = (p.run answers).value := by
  induction p with
  | done value => rfl
  | report event next ih => exact ih
  | ask rule input next ih => exact ih _

/-- The values of answers alone make the value of a run. -/
theorem Plan.run_value_congr {α : Type} {answers answers' : Answers}
    (h : ∀ rule input, (answers rule input).value = (answers' rule input).value) (p : Plan α) :
    (p.run answers).value = (p.run answers').value := by
  induction p with
  | done value => rfl
  | report event next ih => exact ih
  | ask rule input next ih =>
    simp only [run, h]
    exact ih _

namespace Table

variable {t : Table} {maxDepth : Option Nat} {name : String} {input : List Char} {n place : Nat}
  {active active' : List Call} {budget budget' depth : Nat}

/-- Without limit on depth, the values of calls at two depths can differ only in the calls further in. -/
theorem call_value_congr_depth {depth' : Nat}
    (hrun : ∀ e b, t.entry? name = some e → budget = b + 1 →
      ((e.plan t.whitespace depth input).run
          (t.call none b ((name, input.length) :: active) (depth + 1))).value =
        ((e.plan t.whitespace depth' input).run
          (t.call none b ((name, input.length) :: active) (depth' + 1))).value) :
    (t.call none budget active depth name input).value =
      (t.call none budget active depth' name input).value := by
  cases he : t.entry? name with
  | none => rw [call_undeclared he, call_undeclared he]
  | some e =>
    by_cases hactive : (name, input.length) ∈ active
    · rw [call_in_progress he (by simp) hactive, call_in_progress he (by simp) hactive,
        concluded_value, concluded_value]
    · cases budget with
      | zero =>
        rw [call_out_of_budget he (by simp) hactive, call_out_of_budget he (by simp) hactive,
          concluded_value, concluded_value]
      | succ b =>
        rw [call_enter he (by simp) hactive, call_enter he (by simp) hactive, concluded_value,
          concluded_value, hrun e b he rfl]

/-- The value of a call without limit is the same at every depth. -/
theorem call_value_of_depth (t : Table) (budget : Nat) (active : List Call) (depth depth' : Nat)
    (name : String) (input : List Char) :
    (t.call none budget active depth name input).value =
      (t.call none budget active depth' name input).value := by
  induction budget generalizing active depth depth' name input with
  | zero => exact call_value_congr_depth nofun
  | succ budget ih =>
    refine call_value_congr_depth fun e b he hb => ?_
    cases hb
    have hplan : ∀ (answers : Answers) d, ((e.plan t.whitespace d input).run answers).value =
        ((e.plan t.whitespace 0 input).run answers).value := by
      intro answers d
      rw [← Plan.run_deepen_value answers d (e.plan t.whitespace 0 input), e.deepen_plan, Nat.zero_add]
    rw [hplan _ depth, hplan _ depth']
    exact Plan.run_value_congr (fun rule s => ih _ _ _ rule s) _

/-! ## Calls that can still be entered -/

/-- The calls at places up to `n` that are not in progress. -/
def idle (t : Table) (n : Nat) (active : List Call) : Finset Call :=
  ((t.rules.map (·.name)).toFinset ×ˢ Finset.range (n + 1)) \ active.toFinset

theorem mem_idle {c : Call} :
    c ∈ t.idle n active ↔ (c.1 ∈ t.rules.map (·.name) ∧ c.2 ≤ n) ∧ c ∉ active := by
  rw [idle, Finset.mem_sdiff, Finset.mem_product, List.mem_toFinset, List.mem_toFinset, Finset.mem_range,
    Nat.lt_succ_iff]

theorem idle_mono (t : Table) (active : List Call) {m : Nat} (h : m ≤ n) : t.idle m active ⊆ t.idle n active := by
  intro c hc
  obtain ⟨⟨hname, hplace⟩, hnew⟩ := mem_idle.1 hc
  exact mem_idle.2 ⟨⟨hname, hplace.trans h⟩, hnew⟩

theorem card_idle_le (t : Table) (n : Nat) (active : List Call) :
    (t.idle n active).card ≤ t.entries.length * (n + 1) := by
  refine (Finset.card_le_card Finset.sdiff_subset).trans ?_
  rw [Finset.card_product, Finset.card_range]
  refine Nat.mul_le_mul_right _ ((List.toFinset_card_le _).trans ?_)
  simp [rules]

/-- Calls that are in progress are not idle. -/
theorem Orderly.card_idle_add_length_le (h : t.Orderly n active) :
    (t.idle n active).card + active.length ≤ t.entries.length * (n + 1) := by
  have hsub : active.toFinset ⊆ (t.rules.map (·.name)).toFinset ×ˢ Finset.range (n + 1) := by
    intro c hc
    rw [List.mem_toFinset] at hc
    rw [Finset.mem_product, List.mem_toFinset, Finset.mem_range, Nat.lt_succ_iff]
    exact ⟨h.declared c hc, h.placed c hc⟩
  have hall := t.card_idle_le n []
  rw [idle, List.toFinset_nil, Finset.sdiff_empty, ← Finset.card_sdiff_add_card_eq_card hsub,
    List.toFinset_card_of_nodup h.nodup] at hall
  exact hall

/-- A call that is entered is idle no longer. -/
theorem card_idle_cons_lt {e : Entry} (he : t.entry? name = some e) (hplace : place ≤ n)
    (hnew : (name, place) ∉ active) :
    (t.idle n ((name, place) :: active)).card < (t.idle n active).card := by
  have hidle : (name, place) ∈ t.idle n active := by
    refine mem_idle.2 ⟨⟨?_, hplace⟩, hnew⟩
    rw [← name_of_entry he]
    exact List.mem_map_of_mem (rule_mem_of_entry he)
  rw [idle, List.toFinset_cons, Finset.sdiff_insert]
  exact Finset.card_erase_lt_of_mem hidle

/-- A budget that allows for the idle calls of a text allows, once a call is entered, for those of every part
of the text with one call less. -/
theorem card_idle_within {e : Entry} {b : Nat} {s : List Char} (he : t.entry? name = some e)
    (hnew : (name, input.length) ∉ active) (hs : s.length ≤ input.length)
    (hbudget : (t.idle input.length active).card < b + 1) :
    (t.idle s.length ((name, input.length) :: active)).card < b := by
  have hlt := card_idle_cons_lt he (Nat.le_refl _) hnew
  have hle := Finset.card_le_card (t.idle_mono ((name, input.length) :: active) hs)
  omega

/-- Two tables have the same rules under the names with `P`, and these ask for one another only. -/
structure AgreeOn (P : String → Prop) (t t' : Table) : Prop where
  whitespace : t'.whitespace = t.whitespace
  entry : ∀ name, P name → t'.entry? name = t.entry? name
  closed : ∀ name e depth input, P name → t.entry? name = some e →
    (e.plan t.whitespace depth input).AsksOnly P

theorem AgreeOn.refl (t : Table) : AgreeOn (fun _ => True) t t where
  whitespace := rfl
  entry _ _ := rfl
  closed _ e depth input _ _ := (e.plan t.whitespace depth input).asksOnly_true

/-- Only the rules that can be asked for and the calls in progress within the text of a call have a part in it,
provided that the budget allows for all calls that are not in progress. The induction is on the budget. -/
theorem call_congr {P : String → Prop} {t' : Table} (h : AgreeOn P t t') (hname : P name)
    (hbudget : (t.idle input.length active).card < budget)
    (hbudget' : (t'.idle input.length active').card < budget')
    (hactive : ∀ c : Call, c.2 ≤ input.length → (c ∈ active ↔ c ∈ active')) :
    t'.call maxDepth budget' active' depth name input =
      t.call maxDepth budget active depth name input := by
  induction budget generalizing active active' budget' depth name input with
  | zero => exact absurd hbudget (Nat.not_lt_zero _)
  | succ b ih =>
    obtain ⟨b', rfl⟩ : ∃ b', budget' = b' + 1 := ⟨budget' - 1, by omega⟩
    have hentry := h.entry name hname
    cases he : t.entry? name with
    | none => rw [call_undeclared he, call_undeclared (hentry.trans he)]
    | some e =>
      have he' := hentry.trans he
      by_cases hdeep : maxDepth.any (· < depth) = true
      · rw [call_too_deep he hdeep, call_too_deep he' hdeep]
      · have hiff := hactive (name, input.length) (Nat.le_refl _)
        by_cases hin : (name, input.length) ∈ active
        · rw [call_in_progress he hdeep hin, call_in_progress he' hdeep (hiff.1 hin)]
        · have hin' : (name, input.length) ∉ active' := fun hmem => hin (hiff.2 hmem)
          rw [call_enter he hdeep hin, call_enter he' hdeep hin', h.whitespace]
          congr 1
          have hplan := (plan_meets (Law.free_respected t.rules) he depth input).asking
            (h.closed name e depth input hname he)
          refine hplan.run_congr (fun rule s _ => ?_) fun rule s ⟨hs, hrule⟩ => ?_
          · exact call_obeys (Law.free_respected t.rules) _ _ _ _ rule s
          · have hlength : s.length ≤ input.length := List.IsSuffix.length_le hs
            refine ih hrule (card_idle_within he hin hlength hbudget)
              (card_idle_within he' hin' hlength hbudget') fun c hc => ?_
            rw [List.mem_cons, List.mem_cons, hactive c (hc.trans hlength)]

/-- A call further on than all calls in progress comes to what a match begun afresh comes to. -/
theorem call_value_eq_matchRule (hbudget : (t.idle input.length active).card < budget)
    (hactive : ∀ c ∈ active, input.length < c.2) :
    (t.call none budget active depth name input).value = (t.matchRule none name input).value := by
  rw [matchRule, call_value_of_depth t budget active depth 0]
  refine congrArg Traced.value (call_congr (.refl t) trivial ?_ hbudget fun c hc => ?_)
  · exact Nat.lt_succ_of_le (t.card_idle_le input.length [])
  · exact ⟨nofun, fun hmem => absurd hc (Nat.not_le_of_lt (hactive c hmem))⟩

end Table

end Grammarian
