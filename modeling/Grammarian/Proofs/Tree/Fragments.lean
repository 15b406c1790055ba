import Grammarian.Proofs.Grammar.Validity
import Grammarian.Proofs.Parse.Outcome
import Grammarian.Proofs.Parse.Splice
import Grammarian.Proofs.Tree.Nodes

/-!
# Fragments

A rule that is made a fragment leaves the trees it appears in, and its children take its place. Finishing
commutes with this where the nodes of the rule stay in the tree and none of them stands for an error, so a
parse comes to the same tree but for these nodes: `Parser.run_flagged`.
-/

namespace Grammarian

namespace Node

mutual

/-- The node with the children of nodes of the kind `name` under it in their place. -/
def spliced (name : String) : Node → Node
  | ⟨kind, text, start, stop, children⟩ => ⟨kind, text, start, stop, splicedAll name children⟩

/-- The nodes with the children of those of the kind `name` in their place. -/
def splicedAll (name : String) : List Node → List Node
  | [] => []
  | n :: ns =>
    (if n.kind = name then (spliced name n).children else [spliced name n]) ++ splicedAll name ns

end

variable {name : String}

theorem spliced_eq (name : String) (n : Node) :
    n.spliced name = { n with children := splicedAll name n.children } := by
  obtain ⟨kind, text, start, stop, children⟩ := n
  rfl

end Node

/-- The tree without nodes of the kind `name` under the root, their children in their place. -/
def Tree.splice (name : String) (tree : Tree) : Tree := { tree with root := tree.root.spliced name }

/-- Only syntax errors stand for something that went wrong. -/
def Law.faulty : Law where
  node d := d.fault.isSome = true → d.kind = syntaxError
  inner _ := True

theorem Law.faulty_respected (rules : List Rule) : Law.faulty.Respected rules where
  ofFault _ _ _ _ := ⟨fun _ => rfl, trivial⟩
  endOfInput := ⟨nofun, trivial⟩
  node _ _ _ _ _ _ _ _ := nofun
  inner _ _ _ _ _ _ := trivial

namespace Draft

variable {name : String} {keepUpperRules : Bool}

@[simp] theorem spliced_kind (d : Draft) : (d.spliced name).kind = d.kind := by rw [spliced_eq]

/-- Finishing what takes the place of drafts gives what takes the place of the finished ones. -/
theorem finishAll_splicedAll (hname : keeps keepUpperRules name = true) (input : List Char)
    {ds : List Draft}
    (h : ∀ d ∈ ds, (d.spliced name).finish input keepUpperRules =
      (d.finish input keepUpperRules).spliced name) :
    finishAll input keepUpperRules (splicedAll name ds) =
      Node.splicedAll name (finishAll input keepUpperRules ds) := by
  induction ds with
  | nil => rfl
  | cons d ds ih =>
    rw [List.forall_mem_cons] at h
    have happend : ∀ xs ys, finishAll input keepUpperRules (xs ++ ys) =
        finishAll input keepUpperRules xs ++ finishAll input keepUpperRules ys := by
      intro xs ys
      simp only [finishAll_eq, List.filter_append, List.map_append]
    have hkind : (d.finish input keepUpperRules).kind = d.kind := by rw [finish_eq]
    rw [splicedAll, happend, ih h.2, finishAll]
    by_cases hd : d.kind = name
    · have hchildren : finishAll input keepUpperRules (d.spliced name).children =
          ((d.finish input keepUpperRules).spliced name).children := by
        rw [← h.1, finish_eq, finishAll_eq]
      rw [if_pos hd, if_pos (hd ▸ hname), Node.splicedAll, hkind, if_pos hd, hchildren]
    · rw [if_neg hd, finishAll, spliced_kind]
      split
      · rw [Node.splicedAll, hkind, if_neg hd, h.1, finishAll]
      · rw [finishAll, List.nil_append]

/-- Where nodes of the kind stay in the tree, finishing commutes with splicing. -/
theorem finish_spliced (hname : keeps keepUpperRules name = true) (input : List Char) (d : Draft) :
    (d.spliced name).finish input keepUpperRules = (d.finish input keepUpperRules).spliced name := by
  induction d using induct with
  | step d ih =>
    have hchildren := finishAll_splicedAll hname input ih
    simp only [finishAll_eq] at hchildren
    rw [spliced_eq, finish_eq, finish_eq, Node.spliced_eq, hchildren]

/-- Splicing nodes that stand for no error leaves the errors as they are. -/
theorem errors_spliced (herror : name ≠ syntaxError) (input : List Char) {d : Draft}
    (h : ∀ n ∈ d.nodes, Law.faulty.node n) : (d.spliced name).errors input = d.errors input := by
  induction d using induct with
  | step d ih =>
    have hspread : ∀ c ∈ d.children, (c.spread name).flatMap (errors input) = c.errors input := by
      intro c hc
      have hnodes : ∀ n ∈ c.nodes, Law.faulty.node n := fun n hn => h n (mem_nodes_of_child hc hn)
      rw [← ih c hc hnodes]
      unfold spread
      split
      next hkind =>
        have hfault : c.fault = none := by
          rw [← Option.not_isSome_iff_eq_none]
          intro hsome
          exact herror (hkind.symm.trans (hnodes c c.mem_nodes_self hsome))
        rw [errors_eq input (c.spliced name), spliced_eq, hfault]
        rfl
      next => rw [List.flatMap_singleton]
    rw [spliced_eq, errors_eq, errors_eq input d, splicedAll_eq, List.flatMap_assoc,
      List.flatMap_congr hspread]

end Draft

/-- The tree of a spliced match. -/
theorem Match.finish_splice {name : String} {options : Options}
    (hname : Draft.keeps options.keepUpperRules name = true) (herror : name ≠ syntaxError)
    {input : List Char} {m : Match} (h : ∀ n ∈ m.draft.nodes, Law.faulty.node n) :
    (m.splice name).finish input options = (m.finish input options).splice name := by
  have htrailing : (m.splice name).trailing input = m.trailing input := by
    simp only [trailing, splice, Draft.spliced_kind]
  rw [finish, finish, htrailing, Tree.splice]
  simp only [splice, Draft.finish_spliced hname, Draft.errors_spliced herror input h]

namespace Parser

/-- **Fragments are transparent.** Of two accepted tables in which no rule collapses, the second has one rule
more that is a fragment, neither a helper nor an internal rule nor named like a syntax error. With any
options and from any rule that is asked for, a parse with the second table fails as it does with the first,
or comes to the same tree with the children of that rule's nodes in their place, at every depth under the
root. Kinds, texts and spans of all other nodes, the errors and the rest stay, and so does the trace. -/
theorem run_flagged {rules : List Rule} {whitespace name : String} {t t' : Table}
    (hbuild : Table.build rules whitespace = .ok t)
    (hbuild' : Table.build (rules.map (.flagged name)) whitespace = .ok t')
    (hplain : ∀ r ∈ rules, r.collapseSingleChild = false) (hhelper : isHelperName name = false)
    (hinternal : isInternalName name = false) (herror : name ≠ syntaxError) (options : Options)
    (input target : String) :
    run ⟨t', options⟩ input (some target) =
      (run ⟨t, options⟩ input (some target)).map (Except.map (.splice name)) := by
  obtain ⟨-, rfl⟩ := Table.build_eq_ok_iff.1 hbuild
  obtain ⟨-, rfl⟩ := Table.build_eq_ok_iff.1 hbuild'
  have hend : name ≠ Grammarian.endOfInput := by
    rintro rfl
    cases hinternal
  have hkeeps : Draft.keeps options.keepUpperRules name = true := by
    simp [Draft.keeps, hhelper, hinternal]
  have hsettled : ∀ r ∈ (Table.ofRules rules whitespace).rules, r.collapseSingleChild = false := by
    rw [Table.rules_ofRules]
    intro r hr
    obtain ⟨r', hr', rfl⟩ := List.mem_map.1 hr
    rw [Rule.settled]
    split
    · exact hplain r' hr'
    · exact hplain r' hr'
  rw [Table.ofRules_flagged]
  generalize htable : Table.ofRules rules whitespace = t at hsettled ⊢
  have hcontains : (t.flagged name).contains target = t.contains target := by
    rw [Table.contains, Table.entry?_flagged, Option.isSome_map]
    rfl
  by_cases hc : t.contains target = true
  · have hmatch : startMatch ⟨t.flagged name, options⟩ input (some target) =
        (startMatch ⟨t, options⟩ input (some target)).map (Option.map (.splice name)) := by
      have hbudget : (t.flagged name).budgetFor input.toList = t.budgetFor input.toList := by
        simp [Table.budgetFor, Table.flagged]
      rw [startMatch, startMatch, Table.matchRule, Table.matchRule, hbudget]
      exact Table.call_flagged hend herror hsettled
    have hlaw : ∀ m ∈ (startMatch ⟨t, options⟩ input (some target)).value,
        m.Obeys Law.faulty input.toList := fun m hm => startMatch_obeys (Law.faulty_respected t.rules) hm
    rw [run_of_contains (hcontains.trans hc), run_of_contains hc, hmatch]
    cases hvalue : (startMatch ⟨t, options⟩ input (some target)).value with
    | none =>
      simp only [Traced.map, hvalue]
      rfl
    | some m =>
      simp only [Traced.map, hvalue, Option.map_some]
      rw [Match.finish_splice hkeeps herror (hlaw m hvalue).node]
      rfl
  · rw [run_of_not_contains (hcontains ▸ hc), run_of_not_contains hc]
    rfl

/-- A grammar of words in nested brackets. -/
def wrapped : List Rule :=
  [{ name := "Doc", alternatives := [[.reference (.ofText "Item+")]] },
    { name := "Item"
      alternatives :=
        [[.reference (.plain "Word")], [.literal "(", .reference (.plain "Item"), .literal ")"]] },
    { name := "Word", alternatives := [[.literal "a"]] }]

theorem wrapped_flagged : ∃ tree,
    (run ⟨.ofRules wrapped "WS", {}⟩ "(a)a" (some "Doc")).value = .ok tree ∧
    (run ⟨.ofRules (wrapped.map (.flagged "Item")) "WS", {}⟩ "(a)a" (some "Doc")).value =
      .ok (tree.splice "Item") := by
  have hordered : ∀ rules ∈ [wrapped, wrapped.map (.flagged "Item")],
      Table.WellOrdered ["Doc", "Item"] (rules.map (Rule.settled "WS")) "WS" := by decide +kernel
  have hbuild := (hordered _ List.mem_cons_self).build
  have hbuild' := (hordered _ (List.mem_cons_of_mem _ List.mem_cons_self)).build
  have hrun := run_flagged hbuild hbuild' (by decide) (by decide) (by decide) (by decide) {} "(a)a" "Doc"
  have hok : (run ⟨.ofRules wrapped "WS", {}⟩ "(a)a" (some "Doc")).value.toOption.isSome = true := by
    decide +kernel
  rw [hrun]
  cases h : (run ⟨.ofRules wrapped "WS", {}⟩ "(a)a" (some "Doc")).value with
  | error failure =>
    rw [h] at hok
    cases hok
  | ok tree =>
    refine ⟨tree, rfl, ?_⟩
    simp only [Traced.map, h]
    rfl

end Parser

end Grammarian
