import Grammarian.Proofs.Parse.Journal
import Grammarian.Proofs.Parse.Outcome
import Grammarian.Proofs.Parse.Rounds
import Grammarian.Proofs.Text.Bytes

/-!
# The depth of calls

The depth of a call counts the calls in progress around it, so it is bounded by the number of rules and
places. A limit on depth changes nothing when it is not reached, and one that allows for every rule at
every place never is.
-/

namespace Grammarian

/-- Answers may change where they tell an event that the run does not tell. -/
theorem Plan.run_congr_of_events {α : Type} {answers answers' : Answers} {P : Event → Prop}
    (h : ∀ rule input, (∀ e ∈ (answers rule input).events, P e) →
      answers' rule input = answers rule input) {p : Plan α}
    (hp : ∀ e ∈ (p.run answers).events, P e) : p.run answers' = p.run answers := by
  induction p with
  | done value => rfl
  | report event next ih =>
    simp only [run, List.forall_mem_cons] at hp ⊢
    rw [ih hp.2]
  | ask rule input next ih =>
    simp only [run, List.forall_mem_append] at hp ⊢
    rw [h rule input hp.1, ih _ hp.2]

namespace Table

variable {t : Table} {maxDepth : Option Nat} {name : String} {input : List Char}

theorem mem_concluded_events {depth : Nat} {r : Traced (Option Match)} {event : Event}
    (h : event ∈ r.events) : event ∈ (concluded name depth input r).events := by
  unfold concluded
  split
  · simp [h]
  · simp [h]

/-- Where a call meets neither of two limits on depth, they can differ only in the calls further in. -/
theorem call_congr_limit {maxDepth' : Option Nat} {budget depth : Nat} {active : List Call}
    (hdeep : ∀ e, t.entry? name = some e → ¬ maxDepth.any (· < depth) = true)
    (hdeep' : ¬ maxDepth'.any (· < depth) = true)
    (hrun : ∀ e b, t.entry? name = some e → budget = b + 1 → (name, input.length) ∉ active →
      (e.plan t.whitespace depth input).run
          (t.call maxDepth b ((name, input.length) :: active) (depth + 1)) =
        (e.plan t.whitespace depth input).run
          (t.call maxDepth' b ((name, input.length) :: active) (depth + 1))) :
    t.call maxDepth budget active depth name input =
      t.call maxDepth' budget active depth name input := by
  cases he : t.entry? name with
  | none => rw [call_undeclared he, call_undeclared he]
  | some e =>
    by_cases hactive : (name, input.length) ∈ active
    · rw [call_in_progress he (hdeep e he) hactive, call_in_progress he hdeep' hactive]
    · cases budget with
      | zero => rw [call_out_of_budget he (hdeep e he) hactive, call_out_of_budget he hdeep' hactive]
      | succ b =>
        rw [call_enter he (hdeep e he) hactive, call_enter he hdeep' hactive, hrun e b he rfl hactive]

theorem not_deep_of_none (depth : Nat) : ¬ (none : Option Nat).any (· < depth) = true := by simp

theorem not_deep_of_events {budget depth : Nat} {active : List Call} {e : Entry}
    (he : t.entry? name = some e)
    (h : ∀ e ∈ (t.call maxDepth budget active depth name input).events,
      ∀ rule d, e ≠ .depthExceeded rule d) : ¬ maxDepth.any (· < depth) = true := by
  intro hdeep
  rw [call_too_deep he hdeep] at h
  exact h _ (List.mem_singleton_self _) name depth rfl

/-- A call that never meets the limit on depth goes as it does without one. -/
theorem call_eq_of_no_depthExceeded {budget depth : Nat} {active : List Call}
    (h : ∀ e ∈ (t.call maxDepth budget active depth name input).events,
      ∀ rule d, e ≠ .depthExceeded rule d) :
    t.call maxDepth budget active depth name input = t.call none budget active depth name input := by
  induction budget generalizing active depth name input with
  | zero => exact call_congr_limit (fun e he => not_deep_of_events he h) (not_deep_of_none depth) nofun
  | succ budget ih =>
    refine call_congr_limit (fun e he => not_deep_of_events he h) (not_deep_of_none depth) ?_
    intro e b he hb hactive
    cases hb
    rw [call_enter he (not_deep_of_events he h) hactive] at h
    refine (Plan.run_congr_of_events (fun rule s hs => (ih hs).symm) ?_).symm
    exact fun e he => h e (mem_concluded_events he)

/-- A limit that allows for every rule at every place is never met. -/
theorem call_eq_of_limit_le {whole : List Char} {max budget : Nat} {active : List Call}
    (hinput : input <:+ whole) (horder : t.Orderly whole.length active)
    (hmax : t.entries.length * (whole.length + 1) ≤ max) :
    t.call (some max) budget active active.length name input =
      t.call none budget active active.length name input := by
  have hdeep : ∀ {active : List Call}, t.Orderly whole.length active →
      ¬ (some max).any (· < active.length) = true := by
    intro active horder
    have hlength := horder.length_le
    simp only [Option.any_some, decide_eq_true_eq]
    omega
  induction budget generalizing active name input with
  | zero => exact call_congr_limit (fun _ _ => hdeep horder) (not_deep_of_none _) nofun
  | succ budget ih =>
    refine call_congr_limit (fun _ _ => hdeep horder) (not_deep_of_none _) ?_
    intro e b he hb hactive
    cases hb
    have hplan := plan_meets (Law.free_respected t.rules) he active.length input
    refine hplan.run_congr (fun rule s _ => ?_) fun rule s hs => ?_
    · exact call_obeys (Law.free_respected t.rules) _ _ _ _ rule s
    · exact ih (List.IsSuffix.trans hs hinput) (horder.cons he hinput.length_le hactive)

end Table

namespace Parser

/-- The parser with another limit on depth. -/
def withMaxDepth (p : Parser) (maxDepth : Option Nat) : Parser :=
  { p with options := { p.options with maxDepth } }

/-- A limit on depth bears on a parse through the match of its rule alone. -/
theorem run_withMaxDepth_congr (p : Parser) (maxDepth maxDepth' : Option Nat) {input : String}
    {target : Option String}
    (h : (p.withMaxDepth maxDepth).startMatch input target =
      (p.withMaxDepth maxDepth').startMatch input target) :
    (p.withMaxDepth maxDepth).run input target = (p.withMaxDepth maxDepth').run input target := by
  by_cases hcontains : p.table.contains (p.startName target) = true
  · have hcontains' : ∀ m, (p.withMaxDepth m).table.contains
        ((p.withMaxDepth m).startName target) = true := fun _ => hcontains
    rw [run_of_contains (hcontains' maxDepth), run_of_contains (hcontains' maxDepth'), h]
    rfl
  · have hcontains' : ∀ m, ¬ (p.withMaxDepth m).table.contains
        ((p.withMaxDepth m).startName target) = true := fun _ => hcontains
    rw [run_of_not_contains (hcontains' maxDepth), run_of_not_contains (hcontains' maxDepth')]
    rfl

/-- The most calls that can be in progress at once: one for each rule before each byte of the input and
at its end. -/
def depthBound (p : Parser) (input : String) : Nat :=
  p.table.entries.length * (input.utf8ByteSize + 1)

theorem depthBound_le (p : Parser) (input : String) :
    p.table.entries.length * (input.toList.length + 1) ≤ p.depthBound input := by
  have h := Text.length_le_byteCount input.toList
  rw [Text.byteCount_toList] at h
  exact Nat.mul_le_mul_left _ (Nat.succ_le_succ h)

/-- **Termination and depth.** From every rule, with every limit on depth, a match ends: fuel for
`depthBound` nested calls and the one that the guard fails suffices, and the answer is that of
`matchRule`. The depth of every call on the way is the number of calls in progress, which each call
leaves as it finds them, and stays within `depthBound`. A phase is nothing but its rounds, none of which
is kept from going on, and each that does go on leaves less input than it found. Hence a parse that never
meets the limit on depth goes as it does without one, as does a parse with a limit that is no smaller than
`depthBound`. -/
theorem run_ends_within_depthBound (p : Parser) (input : String) (target : Option String) :
    (∀ name, ∃ j, p.table.drive? p.options.maxDepth (p.depthBound input + 1) 0 name input.toList {} =
        some ((p.table.matchRule p.options.maxDepth name input.toList).value, j) ∧
      j.events = (p.table.matchRule p.options.maxDepth name input.toList).events ∧ j.active = ∅ ∧
      ∀ v ∈ j.visits, v.depth = v.active.card ∧ v.depth ≤ p.depthBound input) ∧
    (∀ fuel depth name s j found j',
      p.table.drive? p.options.maxDepth fuel depth name s j = some (found, j') →
        j'.active = j.active) ∧
    (∀ (s : Scene) number ph again g,
      s.phase number ph again g = (s.round number ph again g).bind (s.goOn number ph) ∧
      ∀ answers g', ((s.round number ph again g).run answers).value = .again g' →
        g'.rest.length < g.rest.length) ∧
    ((∀ rule d, .depthExceeded rule d ∉ (p.run input target).events) →
      p.run input target = (p.withMaxDepth none).run input target) ∧
    ∀ max, p.depthBound input ≤ max →
      (p.withMaxDepth (some max)).run input target = (p.withMaxDepth none).run input target := by
  have hbound := p.depthBound_le input
  refine ⟨fun name => ?_, fun _ _ _ _ _ _ _ h => Table.drive?_active h, fun s number ph again g => ?_,
    fun h => ?_, fun max hmax => ?_⟩
  · obtain ⟨j, hdrive, hext⟩ := Table.drive?_eq_call p.options.maxDepth [] (p.depthBound input + 1)
      (p.table.budgetFor input.toList) name List.suffix_rfl (p.table.orderly_nil _)
      (by simpa using Nat.lt_succ_of_le hbound) (by simp [Table.budgetFor]) {} rfl
    obtain ⟨vs, hvs, hsound⟩ := hext.visits
    refine ⟨j, hdrive, hext.events, hext.active, fun v hv => ?_⟩
    rw [hvs] at hv
    exact ⟨(hsound v hv).1, (hsound v hv).2.1.trans hbound⟩
  · refine ⟨s.phase_eq_round number ph again g, fun answers g' hagain => ?_⟩
    rw [Scene.round_value] at hagain
    exact Scene.again_shortens hagain
  · by_cases hcontains : p.table.contains (p.startName target) = true
    · rw [run_of_contains hcontains] at h
      have hmatch : p.startMatch input target = (p.withMaxDepth none).startMatch input target :=
        Table.call_eq_of_no_depthExceeded fun e he rule d heq => h rule d (heq ▸ he)
      exact p.run_withMaxDepth_congr p.options.maxDepth none hmatch
    · have hcontains' : ¬ (p.withMaxDepth none).table.contains
          ((p.withMaxDepth none).startName target) = true := hcontains
      rw [run_of_not_contains hcontains, run_of_not_contains hcontains']
      rfl
  · refine p.run_withMaxDepth_congr (some max) none ?_
    exact Table.call_eq_of_limit_le List.suffix_rfl (p.table.orderly_nil _) (hbound.trans hmax)

end Parser

end Grammarian
