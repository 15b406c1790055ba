import Grammarian.Proofs.Grammar.Validity
import Grammarian.Proofs.Tree.Geometry

/-!
# Collapsed nodes

A single child takes the place of a node whose rule asks for it. This is decided while matching, when the
draft still has all of its children; finishing leaves some of them out. So a node of such a rule never has a
single child in a draft, but may be left with one in the finished tree.
-/

namespace Grammarian

open Draft

/-- No node of a rule that asks for a single child in its place has one. -/
def Law.collapsed (rules : List Rule) : Law where
  node d := ∀ r ∈ rules, r.collapseSingleChild = true → r.name = d.kind → d.children.length ≠ 1
  inner _ := True

/-- Where names are distinct, the rule that a node is named after is the one that made it. -/
theorem Law.collapsed_respected {rules : List Rule} (hnodup : (rules.map (·.name)).Nodup) :
    (Law.collapsed rules).Respected rules where
  ofFault _ _ _ _ := ⟨fun _ _ _ _ => nofun, trivial⟩
  endOfInput := ⟨fun _ _ _ _ => nofun, trivial⟩
  node r hr _ _ _ _ _ hstays r' hr' hcollapse hname := by
    rw [List.inj_on_of_nodup_map hnodup hr' hr hname] at hcollapse
    exact hstays hcollapse
  inner _ _ _ _ _ _ := trivial

/-- Every child stays in the tree when it is finished. -/
def Law.shown (keepUpperRules : Bool) : Law where
  node d := ∀ c ∈ d.children, keeps keepUpperRules c.kind = true
  inner d := keeps keepUpperRules d.kind = true

/-- Where internal rules stay and helpers are fragments, every child does. -/
theorem Law.shown_respected {rules : List Rule}
    (hhelper : ∀ r ∈ rules, isHelperName r.name = true → r.fragment = true) :
    (Law.shown true).Respected rules where
  ofFault _ _ _ _ := ⟨nofun, (by decide : keeps true syntaxError = true)⟩
  endOfInput := ⟨nofun, (by decide : keeps true Grammarian.endOfInput = true)⟩
  node _ _ _ _ _ _ hinner _ := hinner
  inner r hr hfragment _ _ _ := by
    have hname : isHelperName r.name = false := by
      refine Bool.eq_false_iff.2 fun hname => ?_
      rw [hhelper r hr hname] at hfragment
      cases hfragment
    change keeps true r.name = true
    simp [keeps, hname]

/-- All children but one are left out of the tree. -/
def Draft.ShowsOne (keepUpperRules : Bool) (d : Draft) : Prop :=
  ∃ front c back, d.children = front ++ c :: back ∧ keeps keepUpperRules c.kind = true ∧
    ∀ c' ∈ front ++ back, keeps keepUpperRules c'.kind = false

theorem Draft.length_children_finish (input : List Char) (keepUpperRules : Bool) (d : Draft) :
    (d.finish input keepUpperRules).children.length = 1 ↔ d.ShowsOne keepUpperRules := by
  rw [finish_eq, List.length_map, List.length_eq_one_iff]
  simp only [List.filter_eq_cons_iff, List.filter_eq_nil_iff, Bool.not_eq_true, ShowsOne,
    List.forall_mem_append]
  constructor
  · rintro ⟨c, front, back, hchildren, hfront, hc, hback⟩
    exact ⟨front, c, back, hchildren, hc, hfront, hback⟩
  · rintro ⟨front, c, back, hchildren, hc, hfront, hback⟩
    exact ⟨c, front, back, hchildren, hfront, hc, hback⟩

namespace Parser

variable {rules : List Rule} {options : Options} {p : Parser} {input : String}
  {target : Option String} {tree : Tree}

/-- **What a collapsing rule wraps.** In the tree of a parse with accepted rules, a node named after a rule
that asks for a single child in its place comes from a draft that has none or several children; it has
exactly one itself just when all others of its draft are left out. Where internal rules stay and helpers
are fragments none is, and no such node has exactly one child. -/
theorem collapsing_wraps_one_iff (hbuild : Parser.build rules options = .ok p)
    (h : p.parse input target = .ok tree) :
    (∃ m ∈ (p.startMatch input target).value, tree = m.finish input.toList options ∧
      ∀ x ∈ tree.root.nodes, ∀ r ∈ p.table.rules, r.collapseSingleChild = true → r.name = x.kind →
        ∃ d ∈ m.draft.nodes, x = d.finish input.toList options.keepUpperRules ∧
          d.children.length ≠ 1 ∧ (x.children.length = 1 ↔ d.ShowsOne options.keepUpperRules)) ∧
    (options.keepUpperRules = true →
      (∀ r ∈ p.table.rules, isHelperName r.name = true → r.fragment = true) →
      ∀ x ∈ tree.root.nodes, ∀ r ∈ p.table.rules, r.collapseSingleChild = true → r.name = x.kind →
        x.children.length ≠ 1) := by
  obtain ⟨htable, rfl⟩ := Parser.build_eq_ok_iff.1 hbuild
  obtain ⟨m, hm, rfl⟩ := exists_match_of_parse h
  have hcollapsed := startMatch_obeys (Law.collapsed_respected (Table.nodup_of_build htable)) hm
  refine ⟨⟨m, hm, rfl, fun x hx r hr hcollapse hname => ?_⟩,
    fun hkeep hhelper x hx r hr hcollapse hname => ?_⟩
  · obtain ⟨d, hd, rfl⟩ := exists_of_mem_nodes_finish hx
    rw [finish_eq] at hname
    exact ⟨d, hd, rfl, hcollapsed.node d hd r hr hcollapse hname, length_children_finish _ _ d⟩
  · obtain ⟨d, hd, rfl⟩ := exists_of_mem_nodes_finish hx
    have hshown := (startMatch_obeys (Law.shown_respected hhelper) hm).node d hd
    rw [finish_eq] at hname ⊢
    rw [hkeep, List.length_map, List.filter_eq_self.2 hshown]
    exact hcollapsed.node d hd r hr hcollapse hname

/-- A grammar of numbers that end in a semicolon, with blanks between. A value is replaced by the number
that it wraps. -/
def terminated : List Rule :=
  [{ name := "Doc", alternatives := [[.reference (.ofText "Value")]] },
    { name := "Value"
      alternatives := [[.reference (.ofText "Number"), .literal ";"]]
      implicitWhitespace := some true
      collapseSingleChild := true },
    { name := "Number", alternatives := [[.literal "1"]] },
    { name := "WS", alternatives := [[.literal " "]] }]

/-- The parser for the grammar. -/
def ofTerminated (options : Options) : Parser := ⟨.ofRules terminated options.whitespaceRule, options⟩

theorem wellOrdered_terminated :
    Table.WellOrdered ["Doc", "Value"] (terminated.map (Rule.settled "WS")) "WS" := by
  decide +kernel

theorem build_terminated (keepUpperRules : Bool) :
    Parser.build terminated { keepUpperRules } = .ok (ofTerminated { keepUpperRules }) :=
  Parser.build_eq_ok_iff.2 ⟨wellOrdered_terminated.build, rfl⟩

/-- Where the blank stays in the tree, no value wraps a single node. -/
theorem terminated_wraps_none : ∃ tree, (ofTerminated { keepUpperRules := true }).parse "1 ;" none = .ok tree ∧
    ∀ x ∈ tree.root.nodes, ∀ r ∈ (ofTerminated { keepUpperRules := true }).table.rules,
      r.collapseSingleChild = true → r.name = x.kind → x.children.length ≠ 1 := by
  have hok : ((ofTerminated { keepUpperRules := true }).parse "1 ;" none).toOption.isSome = true := by
    decide +kernel
  cases h : (ofTerminated { keepUpperRules := true }).parse "1 ;" none with
  | error failure =>
    rw [h] at hok
    cases hok
  | ok tree =>
    exact ⟨tree, rfl, (collapsing_wraps_one_iff (build_terminated true) h).2 rfl (by decide +kernel)⟩

/-- Where the blank is left out, a value wraps the number alone. -/
theorem terminated_wraps_one :
    Parser.build terminated {} = .ok (ofTerminated {}) ∧
    ∃ tree, (ofTerminated {}).parse "1 ;" none = .ok tree ∧
      ∃ x ∈ tree.root.nodes, ∃ r ∈ (ofTerminated {}).table.rules,
        r.collapseSingleChild = true ∧ r.name = x.kind ∧ x.children.length = 1 := by
  refine ⟨build_terminated false, ?_⟩
  have hone : ((ofTerminated {}).parse "1 ;" none).toOption.any (fun tree =>
      tree.root.nodes.any fun x => (ofTerminated {}).table.rules.any fun r =>
        r.collapseSingleChild && r.name = x.kind && x.children.length = 1) = true := by decide +kernel
  cases h : (ofTerminated {}).parse "1 ;" none with
  | error failure =>
    rw [h] at hone
    cases hone
  | ok tree =>
    refine ⟨tree, rfl, ?_⟩
    simpa [h, Except.toOption, and_assoc] using hone

end Parser

end Grammarian
