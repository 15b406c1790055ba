import Grammarian.Proofs.Parse.Places
import Grammarian.Parse.Finish

/-!
# Nodes of a finished tree

The nodes of a tree in the order of a walk, and where they come from: finishing makes a node from each
draft that stays, and gathers the errors of all drafts.
-/

namespace Grammarian

namespace Node

/-- The nodes of a walk. -/
def nodes (n : Node) : List Node := n.walk.map (·.2)

mutual

/-- A walk passes the nodes in their order. -/
theorem map_walkFrom (path : NodePath) : (n : Node) → (n.walkFrom path).map (·.2) = n.nodes
  | ⟨kind, text, start, stop, children⟩ => by
    simp only [nodes, walk, walkFrom, List.map_cons, map_walkChildren]

theorem map_walkChildren (path : NodePath) (index : Nat) :
    (ns : List Node) → (walkChildren path index ns).map (·.2) = ns.flatMap nodes
  | [] => rfl
  | n :: ns => by
    rw [walkChildren, List.map_append, map_walkFrom, map_walkChildren, List.flatMap_cons]

end

/-- The nodes of a tree are its root and those of its children. -/
theorem nodes_eq (n : Node) : n.nodes = n :: n.children.flatMap nodes := by
  obtain ⟨kind, text, start, stop, children⟩ := n
  simp only [nodes, walk, walkFrom, List.map_cons, map_walkChildren]

end Node

namespace Draft

variable {input : List Char} {keepUpperRules : Bool}

theorem finishAll_eq (input : List Char) (keepUpperRules : Bool) (ds : List Draft) :
    finishAll input keepUpperRules ds =
      (ds.filter (keeps keepUpperRules ·.kind)).map (finish input keepUpperRules) := by
  induction ds with
  | nil => rfl
  | cons d ds ih =>
    rw [finishAll, ih, List.filter_cons]
    split
    · rfl
    · rfl

/-- A draft is finished into its node, with those children that are kept. -/
theorem finish_eq (input : List Char) (keepUpperRules : Bool) (d : Draft) :
    d.finish input keepUpperRules =
      { kind := d.kind
        text := slice input d.left d.after
        start := offset input d.left
        stop := offset input d.after
        children := (d.children.filter (keeps keepUpperRules ·.kind)).map
          (finish input keepUpperRules) } := by
  obtain ⟨kind, fault, left, after, children⟩ := d
  rw [finish, finishAll_eq]

/-- Every finished node is made from a draft. -/
theorem exists_of_mem_nodes_finish {d : Draft} {x : Node}
    (hx : x ∈ (d.finish input keepUpperRules).nodes) :
    ∃ n ∈ d.nodes, x = n.finish input keepUpperRules := by
  induction d using induct with
  | step d ih =>
    rw [Node.nodes_eq, List.mem_cons, finish_eq] at hx
    rcases hx with rfl | hx
    · exact ⟨d, d.mem_nodes_self, (finish_eq ..).symm⟩
    · obtain ⟨y, hy, hx⟩ := List.mem_flatMap.1 hx
      obtain ⟨c, hc, rfl⟩ := List.mem_map.1 hy
      have hc : c ∈ d.children := List.mem_of_mem_filter hc
      obtain ⟨n, hn, hx⟩ := ih c hc hx
      exact ⟨n, mem_nodes_of_child hc hn, hx⟩

theorem errorsAll_eq_flatMap (input : List Char) (ds : List Draft) :
    errorsAll input ds = ds.flatMap (errors input) := by
  induction ds with
  | nil => rfl
  | cons d ds ih => rw [errorsAll, List.flatMap_cons, ih]

/-- The errors of a draft are its own and those of its children. -/
theorem errors_eq (input : List Char) (d : Draft) :
    d.errors input =
      (d.fault.map (errorOf input d.left d.after)).toList ++ d.children.flatMap (errors input) := by
  obtain ⟨kind, fault, left, after, children⟩ := d
  rw [errors, errorsAll_eq_flatMap]

end Draft

end Grammarian
