import Grammarian.Proofs.Tree.Geometry
import Grammarian.Serial.Tree

/-!
# The errors of a tree

Each error of a draft belongs to one of its nodes, and an error has no nodes below it, so the errors
come in the order of the input and apart from one another; the one for the rest comes after them all.
Where no node is left out and only errors bear the name of one, they are the syntax errors that the
tree shows.
-/

namespace Grammarian

open Draft

variable {input : List Char}

/-- The errors of a draft, one for each node with a fault. -/
theorem Draft.errors_eq_filterMap (input : List Char) (d : Draft) :
    d.errors input = d.nodes.filterMap fun n => n.fault.map (errorOf input n.left n.after) := by
  induction d using induct with
  | step d ih =>
    rw [errors_eq, nodes_eq, List.filterMap_cons, List.filterMap_flatMap,
      List.flatMap_congr fun c hc => ih c hc]
    cases d.fault with
    | none => rfl
    | some fault => rfl

theorem Draft.exists_of_mem_errors {d : Draft} {e : ParseError} (he : e ∈ d.errors input) :
    ∃ n ∈ d.nodes, ∃ fault, n.fault = some fault ∧ e = errorOf input n.left n.after fault := by
  rw [errors_eq_filterMap] at he
  obtain ⟨n, hn, he⟩ := List.mem_filterMap.1 he
  obtain ⟨fault, hfault, rfl⟩ := Option.map_eq_some_iff.1 he
  exact ⟨n, hn, fault, hfault, rfl⟩

/-- The errors of a draft lie within its span. -/
theorem Draft.span_of_mem_errors {d : Draft} (h : ∀ n ∈ d.nodes, InOrder n.left n.after n.children)
    {e : ParseError} (he : e ∈ d.errors input) :
    offset input d.left ≤ e.start ∧ e.stop ≤ offset input d.after := by
  obtain ⟨n, hn, fault, -, rfl⟩ := exists_of_mem_errors he
  obtain ⟨hafter, -, hleft⟩ := places_of_inOrder h n hn
  exact ⟨offset_le_offset _ hleft, offset_le_offset _ hafter⟩

/-- The errors of a draft follow one another. -/
theorem Draft.errors_pairwise {d : Draft} (h : ∀ n ∈ d.nodes, Law.geometry.node n) :
    (d.errors input).Pairwise fun e e' => e.stop ≤ e'.start := by
  induction d using induct with
  | step d ih =>
    have hchild : ∀ c ∈ d.children, ∀ n ∈ c.nodes, Law.geometry.node n := fun c hc n hn =>
      h n (mem_nodes_of_child hc hn)
    obtain ⟨horder, hleaf⟩ := h d d.mem_nodes_self
    rw [errors_eq]
    cases hfault : d.fault with
    | some fault =>
      -- The node has no children, so its own error is the only one.
      rw [hleaf (by rw [hfault, Option.isSome_some])]
      exact List.pairwise_singleton _ _
    | none =>
      refine List.pairwise_flatMap.2 ⟨fun c hc => ih c hc (hchild c hc), ?_⟩
      refine horder.pairwise.imp_of_mem fun {c c'} hc hc' hle e he e' he' => ?_
      have hstop := (span_of_mem_errors (fun n hn => (hchild c hc n hn).1) he).2
      have hstart := (span_of_mem_errors (fun n hn => (hchild c' hc' n hn).1) he').1
      exact hstop.trans ((offset_le_offset _ hle).trans hstart)

/-- Only syntax errors are named so, and no child has the name of a helper. -/
def Law.marked : Law where
  node d := (d.kind = syntaxError ↔ d.fault.isSome = true) ∧
    ∀ c ∈ d.children, isHelperName c.kind = false
  inner d := isHelperName d.kind = false

/-- Where helpers are fragments and no rule is named like a syntax error, nodes are marked. -/
theorem Law.marked_respected {rules : List Rule}
    (hhelper : ∀ r ∈ rules, isHelperName r.name = true → r.fragment = true)
    (hname : ∀ r ∈ rules, r.name ≠ syntaxError) : Law.marked.Respected rules where
  ofFault _ _ _ _ :=
    ⟨⟨by simp [ofFault], by simp [ofFault]⟩, (by decide : isHelperName syntaxError = false)⟩
  endOfInput :=
    ⟨⟨by decide, by simp [Match.endOfInput]⟩, (by decide : isHelperName Grammarian.endOfInput = false)⟩
  node r hr _ _ _ _ hinner _ := ⟨by simpa using hname r hr, hinner⟩
  inner r hr hfragment _ _ _ := by
    refine Bool.eq_false_iff.2 fun hkind => ?_
    rw [hhelper r hr hkind] at hfragment
    cases hfragment

/-- When internal rules stay and no child has the name of a helper, no node is left out. -/
theorem Draft.nodes_finish_of_keep {d : Draft}
    (h : ∀ n ∈ d.nodes, ∀ c ∈ n.children, isHelperName c.kind = false) :
    (d.finish input true).nodes = d.nodes.map (finish input true) := by
  induction d using induct with
  | step d ih =>
    have hkeep : d.children.filter (keeps true ·.kind) = d.children := by
      refine List.filter_eq_self.2 fun c hc => ?_
      simp [keeps, h d d.mem_nodes_self c hc]
    have hchildren : (d.finish input true).children = d.children.map (finish input true) := by
      rw [finish_eq, hkeep]
    rw [Node.nodes_eq, hchildren, nodes_eq, List.map_cons, List.flatMap_map, List.map_flatMap]
    congr 1
    refine List.flatMap_congr fun c hc => ih c hc fun n hn => h n ?_
    exact mem_nodes_of_child hc hn

/-- What an error says about the input: its span and its text. -/
def ParseError.extent (e : ParseError) : Nat × Nat × String := (e.start, e.stop, e.text)

/-- What a node says about the input: its span and its text. -/
def Node.extent (n : Node) : Nat × Nat × String := (n.start, n.stop, n.text)

/-- The syntax errors among the nodes are those the errors belong to. -/
theorem Draft.map_errors_of_marked {d : Draft} (h : ∀ n ∈ d.nodes, Law.marked.node n) :
    (d.errors input).map (·.extent) =
      ((d.finish input true).nodes.filter (·.isSyntaxError)).map (·.extent) := by
  have hfaults : (d.nodes.filter fun n => (n.finish input true).isSyntaxError) =
      d.nodes.filter (·.fault.isSome) := by
    refine List.filter_congr fun n hn => ?_
    rw [Node.isSyntaxError, finish_eq, Bool.eq_iff_iff, decide_eq_true_eq]
    exact (h n hn).1
  have hnodes : ((d.finish input true).nodes.filter (·.isSyntaxError)).map (·.extent) =
      (d.nodes.filter (·.fault.isSome)).map fun n => (n.finish input true).extent := by
    rw [nodes_finish_of_keep fun n hn => (h n hn).2, List.filter_map, List.map_map, ← hfaults]
    rfl
  rw [hnodes, errors_eq_filterMap, List.map_filterMap, ← List.filterMap_eq_map,
    List.filterMap_filter]
  congr 1
  funext n
  cases hfault : n.fault with
  | none => rfl
  | some fault => simp [finish_eq, errorOf, ParseError.extent, Node.extent]

/-- The errors of a tree are exact and in the order of the input. -/
structure Tree.Accounts (input : String) (tree : Tree) : Prop where
  /-- an error ends before the next ones begin -/
  ordered : tree.errors.Pairwise fun e e' => e.stop ≤ e'.start
  /-- an error's text is the slice of its span -/
  slice : ∀ e ∈ tree.errors, IsSlice input e.start e.stop e.text
  /-- there is an error for the rest when there is a rest -/
  trailing_iff : (∃ e ∈ tree.errors, e.kindName = "trailing-input") ↔ tree.rest ≠ ""
  /-- the error for the rest is the only one of its kind, the last, and spans the rest -/
  trailing : tree.rest ≠ "" → ∃ es e, tree.errors = es ++ [e] ∧
    (∀ e' ∈ es, e'.kindName ≠ "trailing-input") ∧ e.kindName = "trailing-input" ∧
    e.text = tree.rest ∧ e.stop = input.utf8ByteSize ∧
    ∃ front : String, front ++ tree.rest = input ∧ e.start = front.utf8ByteSize
  /-- As it is written, no node carries errors or a rest. That is so by the type of nodes, which have no place for
  either: the errors of all nodes are gathered in the tree, which the other fields are about. -/
  written : ∀ n ∈ tree.root.nodes, ∀ f ∈ n.fields, f.1 ≠ "errors" ∧ f.1 ≠ "rest"

theorem Draft.kindName_of_mem_errors {d : Draft} {e : ParseError} (he : e ∈ d.errors input) :
    e.kindName ≠ "trailing-input" := by
  obtain ⟨n, -, fault, -, rfl⟩ := exists_of_mem_errors he
  cases fault with
  | missing name => simp [errorOf, ParseError.kindName]
  | skipped rule => simp [errorOf, ParseError.kindName]

/-- The error for what a match leaves over. -/
def Match.trailingError (m : Match) (input : List Char) : ParseError where
  cause := .trailingInput m.draft.kind
  text := String.ofList m.rest
  start := offset input m.rest.length
  stop := Text.byteCount input

theorem Match.trailing_eq (m : Match) (input : List Char) :
    m.trailing input = if m.rest = [] then [] else [m.trailingError input] := by
  simp only [trailing, List.isEmpty_iff]
  rfl

theorem Match.mem_trailing {m : Match} {e : ParseError} :
    e ∈ m.trailing input ↔ m.rest ≠ [] ∧ e = m.trailingError input := by
  rw [trailing_eq]
  split
  next h => simp [h]
  next h => simp [h]

theorem Match.trailing_pairwise (m : Match) (R : ParseError → ParseError → Prop) :
    (m.trailing input).Pairwise R := by
  rw [trailing_eq]
  split
  · exact List.Pairwise.nil
  · exact List.pairwise_singleton _ _

/-- The fields of a node are not for errors or the rest of the input. -/
theorem Node.key_of_mem_fields {n : Node} {f : String × Value} (hf : f ∈ n.fields) :
    f.1 ≠ "errors" ∧ f.1 ≠ "rest" := by
  have hkeys : f.1 ∈ ["kind", "text", "start", "end", "children"] := by
    obtain ⟨kind, text, start, stop, children⟩ := n
    rw [fields] at hf
    rcases List.mem_append.1 hf with hf | hf
    · have hmap := List.mem_map_of_mem (f := Prod.fst) hf
      exact List.mem_append_left ["children"] hmap
    · split at hf
      · cases hf
      · rw [List.mem_singleton.1 hf]
        simp
  constructor
  · intro h
    simp [h] at hkeys
  · intro h
    simp [h] at hkeys

/-- The errors of a finished match are exact. -/
theorem Match.Obeys.finish_accounts {m : Match} {input : String}
    (h : m.Obeys .geometry input.toList) (options : Options) :
    (m.finish input.toList options).Accounts input where
  ordered := by
    refine List.pairwise_append.2 ⟨errors_pairwise h.node, m.trailing_pairwise _, ?_⟩
    intro e he e' he'
    have hstop := (span_of_mem_errors (fun n hn => (h.node n hn).1) he).2
    rw [(mem_trailing.1 he').2]
    exact hstop.trans (offset_le_offset _ h.root.2.2)
  slice e he := by
    rcases List.mem_append.1 he with he | he
    · obtain ⟨n, hn, fault, -, rfl⟩ := exists_of_mem_errors he
      obtain ⟨-, hspan, hleft⟩ := h.places n hn
      exact isSlice_slice hspan hleft
    · rw [(mem_trailing.1 he).2]
      exact isSlice_rest h.rest
  trailing_iff := by
    have hrest : (m.finish input.toList options).rest = "" ↔ m.rest = [] := by simp [Match.finish]
    rw [ne_eq, hrest]
    constructor
    · rintro ⟨e, he, hkind⟩
      rcases List.mem_append.1 he with he | he
      · exact absurd hkind (kindName_of_mem_errors he)
      · exact (mem_trailing.1 he).1
    · intro hne
      exact ⟨_, List.mem_append_right _ (mem_trailing.2 ⟨hne, rfl⟩), rfl⟩
  trailing hrest := by
    have hne : m.rest ≠ [] := by simpa [Match.finish] using hrest
    have htrailing : m.trailing input.toList = [m.trailingError input.toList] := by
      rw [trailing_eq, if_neg hne]
    obtain ⟨front, hfront, hsize⟩ := exists_front_of_suffix h.rest
    exact ⟨_, _, congrArg _ htrailing, fun e he => kindName_of_mem_errors he, rfl, rfl,
      Text.byteCount_toList _, front, hfront, hsize⟩
  written _ _ _ hf := Node.key_of_mem_fields hf

namespace Parser

/-- **Errors are exact.** The errors of a parse follow one another over the input, each with the text of
its span, and one for the rest of the input comes last when there is a rest. Where internal rules stay,
helpers are fragments and no rule is named like a syntax error, the other errors are those of the syntax
errors in the tree, one for each and in the same order. -/
theorem parse_accounts (p : Parser) (input : String) (target : Option String) (tree : Tree)
    (h : p.parse input target = .ok tree) :
    tree.Accounts input ∧
      (p.options.keepUpperRules = true →
        (∀ r ∈ p.table.rules, isHelperName r.name = true → r.fragment = true) →
        (∀ r ∈ p.table.rules, r.name ≠ syntaxError) →
        (tree.errors.filter (·.kindName ≠ "trailing-input")).map (·.extent) =
          (tree.root.nodes.filter (·.isSyntaxError)).map (·.extent)) := by
  obtain ⟨m, hm, rfl⟩ := exists_match_of_parse h
  refine ⟨(startMatch_obeys (Law.geometry_respected _) hm).finish_accounts _, ?_⟩
  intro hkeep hhelper hname
  have hmarked := startMatch_obeys (Law.marked_respected hhelper hname) hm
  have hdraft : (m.draft.errors input.toList).filter (·.kindName ≠ "trailing-input") =
      m.draft.errors input.toList :=
    List.filter_eq_self.2 fun e he => decide_eq_true (kindName_of_mem_errors he)
  have htrailing : (m.trailing input.toList).filter (·.kindName ≠ "trailing-input") = [] := by
    refine List.filter_eq_nil_iff.2 fun e he => ?_
    rw [(Match.mem_trailing.1 he).2]
    simp [Match.trailingError, ParseError.kindName]
  rw [Match.finish, hkeep, List.filter_append, hdraft, htrailing, List.append_nil]
  exact map_errors_of_marked hmarked.node

theorem bracketed_accounts : ∃ tree, bracketed.parse "(é x) z" none = .ok tree ∧
    tree.Accounts "(é x) z" ∧
    (tree.errors.filter (·.kindName ≠ "trailing-input")).map (·.extent) =
      (tree.root.nodes.filter (·.isSyntaxError)).map (·.extent) := by
  obtain ⟨tree, h⟩ := bracketed_parses
  obtain ⟨haccounts, hnodes⟩ := parse_accounts bracketed "(é x) z" none tree h
  exact ⟨tree, h, haccounts, hnodes rfl (by decide) (by decide)⟩

example : (bracketed.parse "(é x) z" none).toOption.map (fun tree => tree.errors.map (·.extent)) =
    some [(3, 5, " x"), (6, 8, " z")] := by decide +kernel

end Parser

end Grammarian
