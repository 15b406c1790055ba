import Mathlib.Data.List.Infix
import Grammarian.Parse.Draft

/-!
# Places of drafts

A place is the number of characters after it, so places fall from left to right. `InOrder` says that
drafts follow one another between two places, and `nodes` lists a draft with everything under it. An
invariant of drafts is a property of every member of this list.
-/

namespace Grammarian

namespace Draft

mutual

/-- A draft and every draft under it, each before its children. -/
def nodes : Draft → List Draft
  | ⟨kind, fault, left, after, children⟩ =>
    ⟨kind, fault, left, after, children⟩ :: nodesAll children

/-- The nodes of some drafts, one draft after the other. -/
def nodesAll : List Draft → List Draft
  | [] => []
  | d :: ds => nodes d ++ nodesAll ds

end

theorem nodesAll_eq_flatMap (ds : List Draft) : nodesAll ds = ds.flatMap nodes := by
  induction ds with
  | nil => rfl
  | cons d ds ih => rw [nodesAll, List.flatMap_cons, ih]

theorem nodes_eq (d : Draft) : d.nodes = d :: d.children.flatMap nodes := by
  obtain ⟨kind, fault, left, after, children⟩ := d
  rw [nodes, nodesAll_eq_flatMap]

theorem mem_nodes_self (d : Draft) : d ∈ d.nodes := by
  rw [nodes_eq]
  exact List.mem_cons_self

theorem mem_nodes_of_child {d c n : Draft} (hc : c ∈ d.children) (hn : n ∈ c.nodes) :
    n ∈ d.nodes := by
  rw [nodes_eq]
  exact List.mem_cons_of_mem d (List.mem_flatMap.2 ⟨c, hc, hn⟩)

/-- Induction over a draft: what passes from the children to their parent holds of every draft. -/
theorem induct {motive : Draft → Prop}
    (step : ∀ d, (∀ c ∈ d.children, motive c) → motive d) (d : Draft) : motive d :=
  step d fun c _ => induct step c
termination_by sizeOf d
decreasing_by
  rename_i hc
  obtain ⟨kind, fault, left, after, children⟩ := d
  have hlt : sizeOf c < sizeOf children := List.sizeOf_lt_of_mem hc
  simp only [mk.sizeOf_spec]
  omega

/-- The drafts follow one another from the place `left` to the place `after`. -/
def InOrder (left after : Nat) : List Draft → Prop
  | [] => after ≤ left
  | d :: ds => d.left ≤ left ∧ d.after ≤ d.left ∧ InOrder d.after after ds

theorem InOrder.le {left after : Nat} {ds : List Draft} (h : InOrder left after ds) :
    after ≤ left := by
  induction ds generalizing left with
  | nil => exact h
  | cons d ds ih => exact (ih h.2.2).trans (h.2.1.trans h.1)

theorem InOrder.append {left middle after : Nat} {ds es : List Draft}
    (h : InOrder left middle ds) (h' : InOrder middle after es) :
    InOrder left after (ds ++ es) := by
  induction ds generalizing left with
  | nil =>
    cases es with
    | nil => exact Nat.le_trans h' h
    | cons e es => exact ⟨h'.1.trans h, h'.2⟩
  | cons d ds ih => exact ⟨h.1, h.2.1, ih h.2.2⟩

/-- The places of each draft in order lie between the places around all of them. -/
theorem InOrder.mem {left after : Nat} {ds : List Draft} (h : InOrder left after ds) :
    ∀ d ∈ ds, d.left ≤ left ∧ d.after ≤ d.left ∧ after ≤ d.after := by
  induction ds generalizing left with
  | nil => simp
  | cons d ds ih =>
    intro e he
    rcases List.mem_cons.1 he with rfl | he
    · exact ⟨h.1, h.2.1, h.2.2.le⟩
    · obtain ⟨hleft, hspan, hafter⟩ := ih h.2.2 e he
      exact ⟨hleft.trans (h.2.1.trans h.1), hspan, hafter⟩

/-- Of two drafts in order the first ends before the second begins. -/
theorem InOrder.pairwise {left after : Nat} {ds : List Draft} (h : InOrder left after ds) :
    ds.Pairwise fun d e => e.left ≤ d.after := by
  induction ds generalizing left with
  | nil => exact List.Pairwise.nil
  | cons d ds ih => exact List.pairwise_cons.2 ⟨fun e he => (h.2.2.mem e he).1, ih h.2.2⟩

end Draft

end Grammarian
