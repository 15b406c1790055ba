import Grammarian.Proofs.Grammar.Validity
import Grammarian.Proofs.Tree.Collapse

/-!
# Names of nodes

What the name of a rule says about its nodes: those of fragments and helpers are in no finished tree, those of
internal rules only when they are asked for. Fragments are dissolved while matching, the other nodes left out
when the tree is finished, and finishing looks at the nodes below the root only. So the root can be the one
exception: where the rule that a parse begins with gives its place to its only child, whatever that child is.
-/

namespace Grammarian

open Draft

/-- The kinds of nodes: those that are reserved and the names of the rules that are no fragments. -/
def IsKind (rules : List Rule) (kind : String) : Prop :=
  kind = endOfInput ∨ kind = syntaxError ∨ ∃ r ∈ rules, r.fragment = false ∧ r.name = kind

/-- The children of every node are of the kinds there are. -/
def Law.kinds (rules : List Rule) : Law where
  node d := ∀ c ∈ d.children, IsKind rules c.kind
  inner d := IsKind rules d.kind

theorem Law.kinds_respected (rules : List Rule) : (Law.kinds rules).Respected rules where
  ofFault _ _ _ _ := ⟨List.forall_mem_nil _, .inr (.inl rfl)⟩
  endOfInput := ⟨List.forall_mem_nil _, .inl rfl⟩
  node _ _ _ _ _ _ hinner _ := hinner
  inner r hr hfragment _ _ _ := .inr (.inr ⟨r, hr, hfragment, rfl⟩)

/-- Where names are distinct, a node named after a fragment is a reserved one. -/
theorem IsKind.reserved {rules : List Rule} (hnodup : (rules.map (·.name)).Nodup) {kind : String}
    (h : IsKind rules kind) {r : Rule} (hr : r ∈ rules) (hfragment : r.fragment = true) (hname : r.name = kind) :
    kind = endOfInput ∨ kind = syntaxError := by
  rcases h with hend | herror | ⟨r', hr', hstays, hname'⟩
  · exact .inl hend
  · exact .inr herror
  · obtain rfl := List.inj_on_of_nodup_map hnodup hr hr' (hname.trans hname'.symm)
    rw [hfragment] at hstays
    cases hstays

/-- The nodes under a node. -/
def Node.inner (n : Node) : List Node := n.children.flatMap nodes

namespace Draft

variable {input : List Char} {keepUpperRules : Bool} {d : Draft} {x : Node}

/-- Below the root there are only nodes that finishing keeps. -/
theorem keeps_of_mem_inner_finish (hx : x ∈ (d.finish input keepUpperRules).inner) :
    keeps keepUpperRules x.kind = true := by
  induction d using induct with
  | step d ih =>
    rw [Node.inner, finish_eq] at hx
    obtain ⟨y, hy, hx⟩ := List.mem_flatMap.1 hx
    obtain ⟨c, hc, rfl⟩ := List.mem_map.1 hy
    obtain ⟨hc, hkeeps⟩ := List.mem_filter.1 hc
    rw [Node.nodes_eq] at hx
    rcases List.mem_cons.1 hx with rfl | hx
    · rw [finish_eq]
      exact hkeeps
    · exact ih c hc hx

theorem isKind_of_mem_nodes_finish {rules : List Rule} (hroot : IsKind rules d.kind)
    (hnode : ∀ n ∈ d.nodes, (Law.kinds rules).node n) (hx : x ∈ (d.finish input keepUpperRules).nodes) :
    IsKind rules x.kind := by
  induction d using induct with
  | step d ih =>
    rw [Node.nodes_eq, finish_eq] at hx
    rcases List.mem_cons.1 hx with rfl | hx
    · exact hroot
    · obtain ⟨y, hy, hx⟩ := List.mem_flatMap.1 hx
      obtain ⟨c, hc, rfl⟩ := List.mem_map.1 hy
      have hc : c ∈ d.children := List.mem_of_mem_filter hc
      exact ih c hc (hnode d d.mem_nodes_self c hc) (fun n hn => hnode n (mem_nodes_of_child hc hn)) hx

end Draft

/-- The nodes of a tree have the names that the rules allow, `entry` being the rule that the parse began with. -/
structure Tree.KeepsNames (rules : List Rule) (keepUpperRules : Bool) (entry : Rule) (tree : Tree) : Prop where
  fragments : ∀ x ∈ tree.root.nodes, ∀ r ∈ rules, r.fragment = true → r.name = x.kind →
    x.kind = endOfInput ∨ x.kind = syntaxError
  helpers : ∀ x ∈ tree.root.nodes, isHelperName x.kind = false
  internals : keepUpperRules = false → ∀ x ∈ tree.root.inner, isInternalName x.kind = false
  /-- the root may be internal only as a node of the rule that the parse began with -/
  root : keepUpperRules = false → isInternalName tree.root.kind = true → tree.root.kind = entry.name

/-- A tree with kinds of nodes as there are, all of them kept below the root, keeps the names just when the root
does. -/
theorem Tree.keepsNames_iff {rules : List Rule} {keepUpperRules : Bool} {entry : Rule} {tree : Tree}
    (hnodup : (rules.map (·.name)).Nodup) (hentry : isHelperName entry.name = false)
    (hkinds : ∀ x ∈ tree.root.nodes, IsKind rules x.kind)
    (hinner : ∀ x ∈ tree.root.inner, keeps keepUpperRules x.kind = true) :
    tree.KeepsNames rules keepUpperRules entry ↔
      tree.root.kind = entry.name ∨ keeps keepUpperRules tree.root.kind = true := by
  have hkeeps : ∀ {kind : String}, keeps keepUpperRules kind = true ↔
      isHelperName kind = false ∧ (keepUpperRules = false → isInternalName kind = false) := by
    intro kind
    cases keepUpperRules with
    | true => simp [keeps]
    | false => simp [keeps]
  have hnodes : tree.root.nodes = tree.root :: tree.root.inner := Node.nodes_eq _
  constructor
  · intro h
    refine or_iff_not_imp_left.2 fun hname => hkeeps.2 ⟨?_, fun hdrop => ?_⟩
    · exact h.helpers _ (by rw [hnodes]; exact List.mem_cons_self)
    · exact Bool.eq_false_iff.2 fun hinternal => hname (h.root hdrop hinternal)
  · intro hroot
    refine Tree.KeepsNames.mk (fun x hx r hr hfragment hname => ?_) ?_ (fun hdrop x hx => ?_) fun hdrop hinternal => ?_
    · exact (hkinds x hx).reserved hnodup hr hfragment hname
    · rw [hnodes, List.forall_mem_cons]
      refine ⟨?_, fun x hx => (hkeeps.1 (hinner x hx)).1⟩
      rcases hroot with hname | hkeep
      · rw [hname]
        exact hentry
      · exact (hkeeps.1 hkeep).1
    · exact (hkeeps.1 (hinner x hx)).2 hdrop
    · rcases hroot with hname | hkeep
      · exact hname
      · rw [(hkeeps.1 hkeep).2 hdrop] at hinternal
        cases hinternal

/-- A match is of the kind of its rule, unless the rule gives its place to an only child. -/
theorem Rule.collapse_close_cases (r : Rule) (g : Growth) (input : List Char) :
    (r.collapse (g.close r input)).draft.kind = r.name ∨
      r.collapseSingleChild = true ∧ g.children = [(r.collapse (g.close r input)).draft] := by
  unfold Rule.collapse
  split
  next hcollapse =>
    split
    next child hchild => exact .inr ⟨hcollapse, hchild⟩
    next => exact .inl rfl
  next => exact .inl rfl

namespace Parser

variable {rules : List Rule} {options : Options} {p : Parser} {input : String} {tree : Tree}

/-- With accepted rules there is one where parsing starts. -/
theorem exists_start_of_build (hbuild : Parser.build rules options = .ok p) :
    ∃ entry, p.table.start? = some entry ∧ entry ∈ p.table.rules ∧ entry.fragment = false ∧
      isHelperName entry.name = false := by
  obtain ⟨htable, -⟩ := Parser.build_eq_ok_iff.1 hbuild
  obtain ⟨hbuilt, hrules⟩ := Table.build_ok_iff_valid rules options.whitespaceRule
  obtain ⟨r, hr, hfragment, hname⟩ := (hbuilt.1 ⟨_, htable⟩).1.entry
  rw [← hrules _ htable] at hr
  cases hstart : p.table.start? with
  | none =>
    have hnone := List.find?_eq_none.1 hstart r hr
    simp [Rule.isEntryCandidate, hfragment, hname] at hnone
  | some entry =>
    have hcandidate := List.find?_some hstart
    simp only [Rule.isEntryCandidate, Bool.and_eq_true, Bool.not_eq_true'] at hcandidate
    exact ⟨entry, rfl, List.mem_of_find?_eq_some hstart, hcandidate⟩

/-- **Which names nodes bear.** In the tree of a parse from the first rule where parsing may start, no node is
named after a fragment, and below the root none is one that finishing leaves out. The root is a node of that
rule, unless the rule gives its place to an only child. The names are kept throughout just when the root is not
such a child that would be left out anywhere else. -/
theorem names_kept_iff (hbuild : Parser.build rules options = .ok p) (h : p.parse input none = .ok tree) :
    ∃ entry, p.table.start? = some entry ∧
      (∀ x ∈ tree.root.nodes, ∀ r ∈ p.table.rules, r.fragment = true → r.name = x.kind →
        x.kind = endOfInput ∨ x.kind = syntaxError) ∧
      (∀ x ∈ tree.root.inner, keeps options.keepUpperRules x.kind = true) ∧
      (tree.root.kind = entry.name ∨ entry.collapseSingleChild = true) ∧
      (tree.KeepsNames p.table.rules options.keepUpperRules entry ↔
        tree.root.kind = entry.name ∨ keeps options.keepUpperRules tree.root.kind = true) := by
  obtain ⟨entry, hstart, hmem, hfragment, hhelper⟩ := exists_start_of_build hbuild
  obtain ⟨htable, rfl⟩ := Parser.build_eq_ok_iff.1 hbuild
  have hnodup := Table.nodup_of_build htable
  obtain ⟨m, hm, rfl⟩ := exists_match_of_parse h
  have hname : p.startName none = entry.name := by simp [startName, hstart]
  obtain ⟨e, g, he, hg, rfl⟩ := exists_growth_of_startMatch (Law.kinds_respected p.table.rules) hm
  obtain rfl : e.rule = entry := by
    refine List.inj_on_of_nodup_map hnodup (Table.rule_mem_of_entry he) hmem ?_
    exact (Table.name_of_entry he).trans hname
  have hroot := e.rule.collapse_close_cases g input.toList
  have hobeys := startMatch_obeys (Law.kinds_respected p.table.rules) hm
  have hkind : IsKind p.table.rules (e.rule.collapse (g.close e.rule input.toList)).draft.kind := by
    rcases hroot with hkind | ⟨-, hchildren⟩
    · rw [hkind]
      exact .inr (.inr ⟨e.rule, hmem, hfragment, rfl⟩)
    · exact hg.inner _ (by rw [hchildren]; exact List.mem_singleton_self _)
  have hfinished : ∀ d : Draft, (d.finish input.toList p.options.keepUpperRules).kind = d.kind := fun d => by
    rw [finish_eq]
  have hkinds : ∀ x ∈ ((e.rule.collapse (g.close e.rule input.toList)).finish input.toList p.options).root.nodes,
      IsKind p.table.rules x.kind := fun x hx => isKind_of_mem_nodes_finish hkind hobeys.node hx
  refine ⟨e.rule, hstart, fun x hx r hr hdissolves hr' => (hkinds x hx).reserved hnodup hr hdissolves hr',
    fun x hx => keeps_of_mem_inner_finish hx, ?_,
    Tree.keepsNames_iff hnodup hhelper hkinds fun x hx => keeps_of_mem_inner_finish hx⟩
  exact (hroot.imp_right And.left).imp_left fun hkind => (hfinished _).trans hkind

/-- In a tree of numbers that end in semicolons the names are kept. -/
theorem terminated_keeps_names : ∃ tree, (ofTerminated {}).parse "1 ;" none = .ok tree ∧
    ∃ entry, (ofTerminated {}).table.start? = some entry ∧ tree.root.kind = entry.name ∧
      tree.KeepsNames (ofTerminated {}).table.rules false entry := by
  have hkind : ((ofTerminated {}).parse "1 ;" none).toOption.any (fun tree =>
      (ofTerminated {}).table.start?.any fun entry => tree.root.kind = entry.name) = true := by decide +kernel
  cases h : (ofTerminated {}).parse "1 ;" none with
  | error failure =>
    rw [h] at hkind
    cases hkind
  | ok tree =>
    obtain ⟨entry, hstart, -, -, -, hiff⟩ := names_kept_iff (build_terminated false) h
    have hroot : tree.root.kind = entry.name := by simpa [h, hstart, Except.toOption] using hkind
    exact ⟨tree, rfl, entry, hstart, hroot, hiff.2 (.inl hroot)⟩

/-- A grammar of documents that give their place to a helper. -/
def yielding : List Rule :=
  [{ name := "Doc", alternatives := [[.reference (.ofText "%Word")]], collapseSingleChild := true },
    { name := "%Word", alternatives := [[.literal "x"]] }]

/-- The node of a helper is the root of a tree. -/
theorem yielding_shows_helper : ∃ p, Parser.build yielding {} = .ok p ∧
    ∃ tree, p.parse "x" none = .ok tree ∧ tree.root ∈ tree.root.nodes ∧ isHelperName tree.root.kind = true := by
  have hordered : Table.WellOrdered ["Doc"] (yielding.map (Rule.settled "WS")) "WS" := by decide +kernel
  have hbuild : Parser.build yielding {} = .ok ⟨.ofRules yielding "WS", {}⟩ :=
    Parser.build_eq_ok_iff.2 ⟨hordered.build, rfl⟩
  refine ⟨_, hbuild, ?_⟩
  have hkind : (Parser.parse ⟨.ofRules yielding "WS", {}⟩ "x" none).toOption.any (fun tree =>
      isHelperName tree.root.kind) = true := by decide +kernel
  cases h : Parser.parse ⟨.ofRules yielding "WS", {}⟩ "x" none with
  | error failure =>
    rw [h] at hkind
    cases hkind
  | ok tree =>
    refine ⟨tree, rfl, ?_, by simpa [h, Except.toOption] using hkind⟩
    rw [Node.nodes_eq]
    exact List.mem_cons_self

end Parser

end Grammarian
