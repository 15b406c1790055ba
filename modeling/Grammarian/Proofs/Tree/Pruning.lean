import Grammarian.Proofs.Parse.Outcome
import Grammarian.Proofs.Tree.Collapse

/-!
# Trees without internal rules

Whether internal rules stay is asked only when a tree is finished. The tree without them is the one with them,
pruned: below the root, their nodes are gone with everything under them. The root, the input left over and
the errors are the same, also those of nodes that are gone.
-/

namespace Grammarian

namespace Node

mutual

/-- The node without the nodes of internal rules under it, and without what is under these. -/
def pruned : Node → Node
  | ⟨kind, text, start, stop, children⟩ => ⟨kind, text, start, stop, prunedAll children⟩

/-- The nodes but those of internal rules, each of them pruned. -/
def prunedAll : List Node → List Node
  | [] => []
  | n :: ns => if isInternalName n.kind then prunedAll ns else pruned n :: prunedAll ns

end

theorem prunedAll_eq (ns : List Node) :
    prunedAll ns = (ns.filter fun n => !isInternalName n.kind).map pruned := by
  induction ns with
  | nil => rfl
  | cons n ns ih =>
    rw [prunedAll, ih, List.filter_cons]
    cases isInternalName n.kind with
    | true => rfl
    | false => rfl

theorem pruned_eq (n : Node) :
    n.pruned = { n with children := (n.children.filter fun c => !isInternalName c.kind).map pruned } := by
  obtain ⟨kind, text, start, stop, children⟩ := n
  rw [pruned, prunedAll_eq]

end Node

/-- The tree without the nodes of internal rules below its root. -/
def Tree.pruned (t : Tree) : Tree := { t with root := t.root.pruned }

namespace Draft

theorem keeps_true_and (kind : String) :
    (keeps true kind && !isInternalName kind) = keeps false kind := by
  simp [keeps]

/-- What is left out of a node is left out of the finished node later. -/
theorem pruned_finish (input : List Char) (d : Draft) :
    (d.finish input true).pruned = d.finish input false := by
  induction d using induct with
  | step d ih =>
    -- The kinds of finished nodes are those of the drafts, so both filters can be made on the drafts.
    have hkinds : ∀ ds : List Draft,
        ((ds.map (finish input true)).filter fun n => !isInternalName n.kind) =
          (ds.filter fun c => !isInternalName c.kind).map (finish input true) := by
      intro ds
      rw [List.filter_map]
      congr 1
      refine List.filter_congr fun c _ => ?_
      rw [Function.comp_apply, finish_eq]
    rw [finish_eq, finish_eq, Node.pruned_eq, hkinds, List.filter_filter, List.map_map]
    congr 1
    rw [List.filter_congr fun c _ => (Bool.and_comm _ _).trans (keeps_true_and c.kind)]
    exact List.map_congr_left fun c hc => ih c (List.mem_of_mem_filter hc)

end Draft

namespace Match

theorem pruned_finish (m : Match) (input : List Char) (options : Options) :
    (m.finish input { options with keepUpperRules := true }).pruned =
      m.finish input { options with keepUpperRules := false } := by
  rw [Match.finish, Match.finish, Tree.pruned, Draft.pruned_finish]

end Match

namespace Parser

/-- The parser with internal rules kept or left out. -/
def keeping (p : Parser) (keepUpperRules : Bool) : Parser :=
  { p with options := { p.options with keepUpperRules } }

/-- Which rules stay is no matter of what is accepted. -/
theorem build_keeping {rules : List Rule} {options : Options} {p : Parser}
    (hbuild : Parser.build rules options = .ok p) (keepUpperRules : Bool) :
    Parser.build rules { options with keepUpperRules } = .ok (p.keeping keepUpperRules) := by
  obtain ⟨htable, rfl⟩ := Parser.build_eq_ok_iff.1 hbuild
  exact Parser.build_eq_ok_iff.2 ⟨htable, rfl⟩

/-- A parse without internal rules takes the same course, and its tree is pruned. -/
theorem run_keeping (p : Parser) (input : String) (target : Option String) :
    (p.keeping false).run input target =
      ⟨((p.keeping true).run input target).value.map Tree.pruned,
        ((p.keeping true).run input target).events⟩ := by
  have hmatch : (p.keeping false).startMatch input target = (p.keeping true).startMatch input target := rfl
  by_cases hcontains : p.table.contains (p.startName target) = true
  · rw [run_of_contains (p := p.keeping false) hcontains, run_of_contains (p := p.keeping true) hcontains, hmatch]
    cases ((p.keeping true).startMatch input target).value with
    | none => rfl
    | some m => exact congrArg (Traced.mk · _) (congrArg Except.ok (m.pruned_finish _ p.options).symm)
  · rw [run_of_not_contains (p := p.keeping false) hcontains, run_of_not_contains (p := p.keeping true) hcontains]
    rfl

/-- **Leaving internal rules out only prunes.** With options that differ in nothing else, the same rules are
accepted, and every parse takes the same course: both end with the same failure, or the tree without internal
rules is the tree with them, pruned. -/
theorem leaving_out_prunes {rules : List Rule} {options : Options} {p : Parser}
    (hbuild : Parser.build rules options = .ok p) (input : String) (target : Option String) :
    ∃ kept pruned, Parser.build rules { options with keepUpperRules := true } = .ok kept ∧
      Parser.build rules { options with keepUpperRules := false } = .ok pruned ∧
      (pruned.run input target).events = (kept.run input target).events ∧
      ((∃ failure, kept.parse input target = .error failure ∧ pruned.parse input target = .error failure) ∨
        ∃ tree, kept.parse input target = .ok tree ∧ pruned.parse input target = .ok tree.pruned) := by
  refine ⟨_, _, build_keeping hbuild true, build_keeping hbuild false, ?_, ?_⟩
  · rw [run_keeping]
  · have hvalue : (p.keeping false).parse input target = ((p.keeping true).parse input target).map Tree.pruned := by
      rw [parse, run_keeping, parse]
    cases h : (p.keeping true).parse input target with
    | error failure => exact .inl ⟨failure, rfl, by rw [hvalue, h]; rfl⟩
    | ok tree => exact .inr ⟨tree, rfl, by rw [hvalue, h]; rfl⟩

/-- Of a number and a semicolon with a blank between, the blank is left out. -/
theorem terminated_prunes : ∃ kept pruned,
    Parser.build terminated { keepUpperRules := true } = .ok kept ∧
    Parser.build terminated { keepUpperRules := false } = .ok pruned ∧
    (pruned.run "1 ;" none).events = (kept.run "1 ;" none).events ∧
    ((∃ failure, kept.parse "1 ;" none = .error failure ∧ pruned.parse "1 ;" none = .error failure) ∨
      ∃ tree, kept.parse "1 ;" none = .ok tree ∧ pruned.parse "1 ;" none = .ok tree.pruned) :=
  leaving_out_prunes (build_terminated true) "1 ;" none

end Parser

end Grammarian
