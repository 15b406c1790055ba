import Grammarian.Proofs.Parse.Guard
import Grammarian.Proofs.Parse.Journal

/-!
# Calls in progress further back

The guard looks for a call among those in progress by its rule and its place, so what a call comes to can hang on
the calls around it. But matching only goes forward: a call asks for its own text and what is behind it, and calls
further back are never met. Main statement: with nothing in progress at its place or behind it, a call goes as it
does afresh, and every call on the way begins with the calls in progress at its place or further back.
-/

namespace Grammarian.Table

variable {t : Table} {maxDepth : Option Nat} {name : String} {input : List Char} {active : List Call}
  {budget fuel depth : Nat}

theorem card_idle_lt_budgetFor (t : Table) (input : List Char) (active : List Call) :
    (t.idle input.length active).card < t.budgetFor input :=
  Nat.lt_succ_of_le (t.card_idle_le input.length active)

/-- What is in progress further back changes neither the match nor the events of a call. -/
theorem call_eq_of_further_back (hbudget : t.budgetFor input ≤ budget)
    (hback : ∀ c ∈ active, input.length < c.2) :
    t.call maxDepth budget active depth name input =
      t.call maxDepth (t.budgetFor input) [] depth name input := by
  refine call_congr (.refl t) trivial (t.card_idle_lt_budgetFor input []) ?_ fun c hc => ?_
  · exact Nat.lt_of_lt_of_le (t.card_idle_lt_budgetFor input active) hbudget
  · exact ⟨nofun, fun hmem => absurd hc (Nat.not_le_of_lt (hback c hmem))⟩

/-- A call begins at the place of the calls in progress or behind it. -/
def Forward (v : Visit) : Prop := ∀ c ∈ v.active, v.input.length ≤ c.2

theorem forward_hereditary (t : Table) : t.Hereditary Forward := by
  intro v e rule s hforward _ _ hs c hc
  have hle : s.length ≤ v.input.length := hs.length_le
  rcases Finset.mem_insert.1 hc with rfl | hc
  · exact hle
  · exact hle.trans (hforward c hc)

/-- A call goes as with nothing else in progress: it ends with the same match, tells the same events and leaves the
calls in progress as they are. -/
def GoesAfresh (t : Table) (maxDepth : Option Nat) (v : Visit) : Prop :=
  ∀ (fuel : Nat) (j : Journal), t.budgetFor v.input ≤ fuel → j.active = v.active →
    ∃ j', t.drive? maxDepth fuel v.depth v.name v.input j =
        some ((t.call maxDepth (t.budgetFor v.input) [] v.depth v.name v.input).value, j') ∧
      j'.active = j.active ∧
      j'.events = j.events ++ (t.call maxDepth (t.budgetFor v.input) [] v.depth v.name v.input).events

/-- With nothing in progress at its place or behind it, a call has the answer of a call afresh, and all calls on the
way go forward. -/
theorem drive?_eq_call_of_further_back (maxDepth : Option Nat) (depth : Nat) (name : String)
    (hfuel : t.budgetFor input ≤ fuel) (j : Journal) (hback : ∀ c ∈ j.active, input.length < c.2) :
    ∃ j', t.drive? maxDepth fuel depth name input j =
        some ((t.call maxDepth (t.budgetFor input) [] depth name input).value, j') ∧
      j.Extends Forward (t.call maxDepth (t.budgetFor input) [] depth name input).events j' := by
  have hactive : j.active.toList.toFinset = j.active := Finset.toList_toFinset j.active
  have hcalls : ∀ c ∈ j.active.toList, input.length < c.2 := fun c hc => hback c (Finset.mem_toList.1 hc)
  have hbegin : Forward ⟨name, input, depth, j.active.toList.toFinset⟩ := by
    intro c hc
    exact (hcalls c (List.mem_toFinset.1 hc)).le
  have hidle := t.card_idle_lt_budgetFor input j.active.toList
  obtain ⟨j', hdrive, hext⟩ := drive?_eq_call_of_idle t.forward_hereditary maxDepth j.active.toList fuel
    (t.budgetFor input) depth name (Nat.lt_of_lt_of_le hidle hfuel) hidle hbegin j hactive.symm
  rw [call_eq_of_further_back (Nat.le_refl _) hcalls] at hdrive hext
  exact ⟨j', hdrive, hext⟩

theorem goesAfresh_of_further_back (t : Table) (maxDepth : Option Nat) {v : Visit}
    (hback : ∀ c ∈ v.active, v.input.length < c.2) : t.GoesAfresh maxDepth v := by
  intro fuel j hfuel hj
  obtain ⟨j', hdrive, hext⟩ := drive?_eq_call_of_further_back maxDepth v.depth v.name hfuel j (hj ▸ hback)
  exact ⟨j', hdrive, hext.active, hext.events⟩

/-- **Calls in progress further back are irrelevant.** A call around which everything in progress has more of the text
left goes as it does afresh, at every depth and with every limit on it, and `call` comes to the same with these calls
and without. On the way every call begins at the place of the calls in progress or behind it. If it is behind all of
them, because something has been consumed or skipped since, it goes as it does afresh. -/
theorem further_back_irrelevant (t : Table) (maxDepth : Option Nat) (depth : Nat) (name : String) (input : List Char)
    (active : Finset Call) (hback : ∀ c ∈ active, input.length < c.2) :
    t.GoesAfresh maxDepth ⟨name, input, depth, active⟩ ∧
    (∀ budget calls, t.budgetFor input ≤ budget → calls.toFinset = active →
      t.call maxDepth budget calls depth name input =
        t.call maxDepth (t.budgetFor input) [] depth name input) ∧
    ∀ fuel (j : Journal), t.budgetFor input ≤ fuel → j.active = active →
      ∃ found j' visits, t.drive? maxDepth fuel depth name input j = some (found, j') ∧
        j'.visits = j.visits ++ visits ∧
        ∀ v ∈ visits, (∀ c ∈ v.active, v.input.length ≤ c.2) ∧
          ((∀ c ∈ v.active, v.input.length ≠ c.2) → t.GoesAfresh maxDepth v) := by
  refine ⟨t.goesAfresh_of_further_back maxDepth hback, fun budget calls hbudget hcalls => ?_, fun fuel j hfuel hj => ?_⟩
  · exact call_eq_of_further_back hbudget fun c hc => hback c (hcalls ▸ List.mem_toFinset.2 hc)
  · obtain ⟨j', hdrive, hext⟩ := drive?_eq_call_of_further_back maxDepth depth name hfuel j (hj ▸ hback)
    obtain ⟨visits, hvisits, hforward⟩ := hext.visits
    refine ⟨_, j', visits, hdrive, hvisits, fun v hv => ⟨hforward v hv, fun hbehind => ?_⟩⟩
    exact t.goesAfresh_of_further_back maxDepth fun c hc =>
      Nat.lt_of_le_of_ne (hforward v hv c hc) (hbehind c hc)

/-- A list inside a list, behind the bracket that the list around it began with. -/
theorem nested_goesAfresh : (∀ c ∈ ({("List", 4), ("WS", 4)} : Finset Call), ['x', ' ', ')'].length < c.2) ∧
    nested.GoesAfresh (some 2) ⟨"List", ['x', ' ', ')'], 1, {("List", 4), ("WS", 4)}⟩ ∧
    (nested.call (some 2) (nested.budgetFor ['x', ' ', ')']) [] 1 "List" ['x', ' ', ')']).value.isSome = true := by
  have hback : ∀ c ∈ ({("List", 4), ("WS", 4)} : Finset Call), ['x', ' ', ')'].length < c.2 := by decide
  exact ⟨hback, (further_back_irrelevant nested (some 2) 1 "List" ['x', ' ', ')'] _ hback).1, by decide +kernel⟩

/-- At the same place the guard fails the call. -/
example : (nested.call (some 2) (nested.budgetFor ['x']) [("List", 1)] 1 "List" ['x']).value.isSome = false := by
  decide +kernel

end Grammarian.Table
