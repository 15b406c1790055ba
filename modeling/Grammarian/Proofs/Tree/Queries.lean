import Mathlib.Data.List.Lex
import Grammarian.Proofs.Tree.Nodes

/-!
# Queries of a tree

A walk, a look-up by path, the parent of a path, the first node of a kind and the children of a kind go
through a tree in five different ways. They agree: the walk lists the nodes by their paths, in the
lexicographic order of these, and every other query can be read off it.
-/

namespace Grammarian

namespace Node

variable {n t : Node} {path p q : NodePath} {kind : String} {index : Nat}

/-! ## The walk and its paths -/

mutual

/-- A walk that begins further up is the same walk with longer paths. -/
theorem walkFrom_append (path q : NodePath) :
    (n : Node) → n.walkFrom (path ++ q) = (n.walkFrom q).map fun x => (path ++ x.1, x.2)
  | ⟨kind, text, start, stop, children⟩ => by
    rw [walkFrom, walkFrom, List.map_cons, walkChildren_append]

theorem walkChildren_append (path q : NodePath) (index : Nat) : (ns : List Node) →
    walkChildren (path ++ q) index ns = (walkChildren q index ns).map fun x => (path ++ x.1, x.2)
  | [] => rfl
  | n :: ns => by
    rw [walkChildren, walkChildren, List.map_append, List.append_assoc, walkFrom_append, walkChildren_append]

end

theorem walk_eq (n : Node) : n.walk = ([], n) :: walkChildren [] 0 n.children := by
  obtain ⟨kind, text, start, stop, children⟩ := n
  rfl

/-- The walk of the first child, with its index in front of every path, comes before those of the others. -/
theorem walkChildren_cons (index : Nat) (n : Node) (ns : List Node) :
    walkChildren [] index (n :: ns) =
      (n.walk.map fun x => (index :: x.1, x.2)) ++ walkChildren [] (index + 1) ns := by
  rw [walkChildren, List.nil_append, walk, ← List.append_nil [index], walkFrom_append]
  rfl

theorem mem_walkChildren_iff {ns : List Node} :
    (p, t) ∈ walkChildren [] index ns ↔
      ∃ i q c, p = (index + i) :: q ∧ ns[i]? = some c ∧ (q, t) ∈ c.walk := by
  induction ns generalizing index with
  | nil => simp [walkChildren]
  | cons n ns ih =>
    rw [walkChildren_cons, List.mem_append, ih, List.mem_map]
    constructor
    · rintro (⟨⟨q, t⟩, hmem, heq⟩ | ⟨i, q, c, rfl, hc, hmem⟩)
      · cases heq
        exact ⟨0, q, n, rfl, rfl, hmem⟩
      · exact ⟨i + 1, q, c, by rw [Nat.add_assoc, Nat.add_comm 1 i], hc, hmem⟩
    · rintro ⟨i, q, c, rfl, hc, hmem⟩
      cases i with
      | zero =>
        cases hc
        exact .inl ⟨(q, t), hmem, rfl⟩
      | succ i => exact .inr ⟨i, q, c, by rw [Nat.add_assoc, Nat.add_comm 1 i], hc, hmem⟩

/-- What stands below a node has a path that is not empty. -/
theorem ne_nil_of_mem_walkChildren {ns : List Node} (h : (p, t) ∈ walkChildren [] index ns) : p ≠ [] := by
  obtain ⟨i, q, c, rfl, -, -⟩ := mem_walkChildren_iff.1 h
  exact List.cons_ne_nil _ _

/-- A path leads to the node that the walk lists with it. The induction is on the path, whose first index
chooses the child. -/
theorem mem_walk_iff : (p, t) ∈ n.walk ↔ n.at? p = some t := by
  induction p generalizing n with
  | nil =>
    rw [walk_eq, List.mem_cons, at?]
    constructor
    · rintro (heq | hmem)
      · cases heq
        rfl
      · exact absurd rfl (ne_nil_of_mem_walkChildren hmem)
    · rintro ⟨⟩
      exact .inl rfl
  | cons i q ih =>
    rw [walk_eq, List.mem_cons, mem_walkChildren_iff, at?]
    constructor
    · rintro (heq | ⟨j, q', c, heq, hc, hmem⟩)
      · cases heq
      · rw [Nat.zero_add] at heq
        cases heq
        rw [hc]
        exact ih.1 hmem
    · intro h
      cases hc : n.children[i]? with
      | none =>
        rw [hc] at h
        cases h
      | some c =>
        rw [hc] at h
        exact .inr ⟨i, q, c, by rw [Nat.zero_add], hc, ih.2 h⟩

/-! ## The order of the paths -/

mutual

/-- Every path of a walk comes before those of the nodes listed later. -/
theorem pairwise_walk : (n : Node) → n.walk.Pairwise (fun x y => x.1 < y.1)
  | ⟨kind, text, start, stop, children⟩ => by
    rw [walk_eq, List.pairwise_cons]
    refine ⟨?_, pairwise_walkChildren 0 children⟩
    rintro ⟨p, t⟩ hmem
    obtain ⟨i, q, c, rfl, -, -⟩ := mem_walkChildren_iff.1 hmem
    exact List.nil_lt_cons _ _

theorem pairwise_walkChildren (index : Nat) :
    (ns : List Node) → (walkChildren [] index ns).Pairwise (fun x y => x.1 < y.1)
  | [] => List.Pairwise.nil
  | n :: ns => by
    rw [walkChildren_cons, List.pairwise_append, List.pairwise_map]
    refine ⟨?_, pairwise_walkChildren (index + 1) ns, ?_⟩
    · exact (pairwise_walk n).imp fun hlt => List.cons_lt_cons_iff.2 (.inr ⟨rfl, hlt⟩)
    · rintro ⟨p, t⟩ hp ⟨p', t'⟩ hp'
      obtain ⟨⟨q, t⟩, -, heq⟩ := List.mem_map.1 hp
      cases heq
      obtain ⟨i, q', c, rfl, -, -⟩ := mem_walkChildren_iff.1 hp'
      exact List.cons_lt_cons_iff.2 (.inl (by omega))

end

/-! ## Parents, and nodes of a kind -/

theorem at?_append (n : Node) (p q : NodePath) : n.at? (p ++ q) = (n.at? p).bind (·.at? q) := by
  induction p generalizing n with
  | nil => rfl
  | cons i p ih =>
    rw [List.cons_append, at?, at?]
    cases n.children[i]? with
    | none => rfl
    | some c => exact ih c

/-- The parent of a path that leads to a node has this node among its children, at the last index. -/
theorem exists_parentOf? (h : n.at? p = some t) (hne : p ≠ []) :
    ∃ parent i, n.parentOf? p = some parent ∧ p.getLast? = some i ∧ parent.children[i]? = some t := by
  obtain ⟨q, i, rfl⟩ := (List.eq_nil_or_concat' p).resolve_left hne
  rw [at?_append] at h
  obtain ⟨parent, hparent, hat⟩ := Option.bind_eq_some_iff.1 h
  refine ⟨parent, i, ?_, List.getLast?_concat, ?_⟩
  · rw [parentOf?, NodePath.parent?, if_neg (by simp), List.dropLast_concat]
    exact hparent
  · rw [at?] at hat
    cases hc : parent.children[i]? with
    | none =>
      rw [hc] at hat
      cases hat
    | some c =>
      rw [hc] at hat
      exact hat

mutual

/-- The search for a kind finds the node that the walk comes to first. -/
theorem find?_eq_walk (kind : String) :
    (n : Node) → n.find? kind = (n.walk.find? (·.2.kind = kind)).map (·.2)
  | ⟨k, text, start, stop, children⟩ => by
    rw [walk_eq, find?, List.find?_cons]
    by_cases hkind : k = kind
    · simp [hkind]
    · simp only [hkind, if_false, decide_false]
      exact findAmong?_eq_walk kind 0 children

theorem findAmong?_eq_walk (kind : String) (index : Nat) : (ns : List Node) →
    findAmong? kind ns = ((walkChildren [] index ns).find? (·.2.kind = kind)).map (·.2)
  | [] => rfl
  | n :: ns => by
    rw [walkChildren_cons, List.find?_append, List.find?_map, findAmong?, find?_eq_walk kind n,
      findAmong?_eq_walk kind (index + 1) ns]
    -- A longer path does not change the kind.
    have hsame : ((fun x : NodePath × Node => decide (x.2.kind = kind)) ∘
        fun x : NodePath × Node => (index :: x.1, x.2)) = fun x => decide (x.2.kind = kind) := rfl
    rw [hsame]
    cases n.walk.find? fun x => decide (x.2.kind = kind) with
    | none => rfl
    | some x => rfl

end

/-- The children of a kind, as a walk lists them one level down. -/
theorem filter_walkChildren (kind : String) (index : Nat) (ns : List Node) :
    ((walkChildren [] index ns).filter fun x : NodePath × Node => x.1.length = 1 ∧ x.2.kind = kind).map (·.2) =
      ns.filter (·.kind = kind) := by
  induction ns generalizing index with
  | nil => rfl
  | cons n ns ih =>
    -- Of the walk of a child only the child itself is one level down.
    have hbelow : ((walkChildren [] 0 n.children).filter fun x : NodePath × Node =>
        decide ((index :: x.1).length = 1 ∧ x.2.kind = kind)) = [] := by
      refine List.filter_eq_nil_iff.2 ?_
      rintro ⟨p, t⟩ hmem
      simp [ne_nil_of_mem_walkChildren hmem]
    rw [walkChildren_cons, List.filter_append, List.map_append, ih, List.filter_map, walk_eq, List.filter_cons]
    simp only [Function.comp_def, hbelow]
    by_cases hkind : n.kind = kind
    · simp [hkind]
    · simp [hkind]

theorem childrenOf_eq_walk (n : Node) (kind : String) :
    n.childrenOf kind = (n.walk.filter fun x => x.1.length = 1 ∧ x.2.kind = kind).map (·.2) := by
  rw [walk_eq, List.filter_cons, if_neg (by simp), filter_walkChildren, childrenOf]

/-- **The queries of a tree agree.** A walk lists the nodes with their paths, which are distinct and in
lexicographic order, a path before those that go on from it; a path leads to the node that is listed with it,
and nowhere if there is none; every node but the root is the child of the parent of its path, at the last
index; the search for a kind finds the first node of the kind that is listed; and the children of a kind are
the nodes of the kind that are listed with paths of one index. -/
theorem queries_agree (n : Node) :
    (n.walk.map (·.1)).Pairwise (· < ·) ∧ (n.walk.map (·.1)).Nodup ∧
    (∀ p t, n.at? p = some t ↔ (p, t) ∈ n.walk) ∧
    (∀ p t, (p, t) ∈ n.walk → p ≠ [] →
      ∃ parent i, n.parentOf? p = some parent ∧ p.getLast? = some i ∧ parent.children[i]? = some t) ∧
    (∀ kind, n.find? kind = (n.walk.find? (·.2.kind = kind)).map (·.2)) ∧
    ∀ kind, n.childrenOf kind =
      (n.walk.filter fun x => x.1.length = 1 ∧ x.2.kind = kind).map (·.2) := by
  have horder : (n.walk.map (·.1)).Pairwise (· < ·) := List.pairwise_map.2 n.pairwise_walk
  refine ⟨horder, horder.imp fun hlt => ne_of_lt hlt, fun p t => mem_walk_iff.symm, ?_, ?_, ?_⟩
  · exact fun p t hmem hne => exists_parentOf? (mem_walk_iff.1 hmem) hne
  · exact fun kind => find?_eq_walk kind n
  · exact n.childrenOf_eq_walk

end Node

end Grammarian
