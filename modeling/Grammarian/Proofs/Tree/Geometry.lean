import Grammarian.Proofs.Parse.Calls
import Grammarian.Proofs.Parse.Outcome
import Grammarian.Proofs.Text.Slice
import Grammarian.Proofs.Tree.Nodes

/-!
# The geometry of a tree

The law that children follow one another inside their parent is kept by all of matching. From it the
spans of a finished tree are slices of the input, nested and in order: finishing turns places into
offsets, which keeps their order, and leaves out nodes, which keeps it too.
-/

namespace Grammarian

open Draft

/-- Children follow one another inside their parent, and a syntax error has none. -/
def Law.geometry : Law where
  node d := InOrder d.left d.after d.children ∧ (d.fault.isSome = true → d.children = [])
  inner _ := True

theorem Law.geometry_respected (rules : List Rule) : Law.geometry.Respected rules where
  ofFault _ _ _ h := ⟨⟨h, fun _ => rfl⟩, trivial⟩
  endOfInput := ⟨⟨Nat.le_refl 0, fun _ => rfl⟩, trivial⟩
  node _ _ _ _ _ horder _ _ := ⟨horder, nofun⟩
  inner _ _ _ _ _ _ := trivial

/-- Under a draft whose children are in order everywhere, all places lie between its own. -/
theorem Draft.places_of_inOrder {d : Draft} (h : ∀ n ∈ d.nodes, InOrder n.left n.after n.children) :
    ∀ n ∈ d.nodes, d.after ≤ n.after ∧ n.after ≤ n.left ∧ n.left ≤ d.left := by
  induction d using induct with
  | step d ih =>
    have hd := h d d.mem_nodes_self
    intro n hn
    rw [nodes_eq, List.mem_cons] at hn
    rcases hn with rfl | hn
    · exact ⟨Nat.le_refl _, hd.le, Nat.le_refl _⟩
    · obtain ⟨c, hc, hn⟩ := List.mem_flatMap.1 hn
      obtain ⟨hleft, -, hafter⟩ := hd.mem c hc
      obtain ⟨hafter', hspan, hleft'⟩ :=
        ih c hc (fun n hn => h n (mem_nodes_of_child hc hn)) n hn
      exact ⟨hafter.trans hafter', hspan, hleft'.trans hleft⟩

/-- All places of a match lie between its ends. -/
theorem Match.Obeys.places {m : Match} {input : List Char} (h : m.Obeys .geometry input) :
    ∀ n ∈ m.draft.nodes, m.rest.length ≤ n.after ∧ n.after ≤ n.left ∧ n.left ≤ input.length := by
  obtain ⟨hleft, -, hafter⟩ := h.root
  intro n hn
  obtain ⟨hafter', hspan, hleft'⟩ := places_of_inOrder (fun n hn => (h.node n hn).1) n hn
  exact ⟨hafter.trans hafter', hspan, hleft'.trans hleft⟩

/-- The spans of a tree fit the input and one another. -/
structure Tree.Fits (input : String) (tree : Tree) : Prop where
  /-- a node's span lies between characters, and its text is the slice of its span -/
  slice : ∀ n ∈ tree.root.nodes, IsSlice input n.start n.stop n.text
  /-- children lie inside their parent -/
  inside : ∀ n ∈ tree.root.nodes, ∀ c ∈ n.children, n.start ≤ c.start ∧ c.stop ≤ n.stop
  /-- a child ends before the next ones begin -/
  ordered : ∀ n ∈ tree.root.nodes, n.children.Pairwise fun a b => a.stop ≤ b.start
  /-- the rest is the end of the input, at or after the end of the root -/
  rest : ∃ front : String, front ++ tree.rest = input ∧ tree.root.stop ≤ front.utf8ByteSize

/-- A finished match fits the input. -/
theorem Match.Obeys.finish_fits {m : Match} {input : String} (h : m.Obeys .geometry input.toList)
    (options : Options) : (m.finish input.toList options).Fits input where
  slice x hx := by
    obtain ⟨n, hn, rfl⟩ := exists_of_mem_nodes_finish hx
    obtain ⟨-, hspan, hleft⟩ := h.places n hn
    rw [finish_eq]
    exact isSlice_slice hspan hleft
  inside x hx c hc := by
    obtain ⟨n, hn, rfl⟩ := exists_of_mem_nodes_finish hx
    rw [finish_eq] at hc ⊢
    obtain ⟨d, hd, rfl⟩ := List.mem_map.1 hc
    obtain ⟨hleft, -, hafter⟩ := (h.node n hn).1.mem d (List.mem_of_mem_filter hd)
    rw [finish_eq]
    exact ⟨offset_le_offset _ hleft, offset_le_offset _ hafter⟩
  ordered x hx := by
    obtain ⟨n, hn, rfl⟩ := exists_of_mem_nodes_finish hx
    rw [finish_eq, List.pairwise_map]
    refine ((h.node n hn).1.pairwise.filter _).imp fun hle => ?_
    rw [finish_eq, finish_eq]
    exact offset_le_offset _ hle
  rest := by
    obtain ⟨front, hfront, hsize⟩ := exists_front_of_suffix h.rest
    refine ⟨front, hfront, ?_⟩
    rw [← hsize, Match.finish, finish_eq]
    exact offset_le_offset _ h.root.2.2

/-- Whatever rule is called on whatever text, with any calls in progress, all that is cut from the text
is in range: other rules are asked about suffixes of it only, the rest of a match is one, and the places
of a match lie in order within it. -/
def Table.CutsInRange (t : Table) : Prop :=
  ∀ maxDepth budget active depth name s,
    (∀ e, t.entry? name = some e → ∀ q ∈ (e.plan t.whitespace depth s).asked
        (t.call maxDepth budget active (depth + 1)), q.2 <:+ s) ∧
      ∀ m ∈ (t.call maxDepth budget active depth name s).value, m.rest <:+ s ∧
        ∀ n ∈ m.draft.nodes, m.rest.length ≤ n.after ∧ n.after ≤ n.left ∧ n.left ≤ s.length

theorem Table.cutsInRange (t : Table) : t.CutsInRange := by
  have hL := Law.geometry_respected t.rules
  intro maxDepth budget active depth name s
  constructor
  · intro e he
    have hplan := plan_meets hL he depth s
    exact hplan.asked fun rule input _ => call_obeys hL _ _ _ _ rule input
  · intro m hm
    have hobeys := call_obeys hL _ _ _ _ _ _ m hm
    exact ⟨hobeys.rest, hobeys.places⟩

namespace Parser

/-- The root of a rule that does not collapse is the whole front of the input. -/
theorem startMatch_places {p : Parser} {input : String} {target : Option String} {m : Match}
    (hm : m ∈ (p.startMatch input target).value)
    (hcollapse : ∀ e, p.table.entry? (p.startName target) = some e →
      e.rule.collapseSingleChild = false) :
    m.draft.left = input.toList.length ∧ m.draft.after = m.rest.length := by
  have hL := Law.free_respected p.table.rules
  obtain ⟨e, budget, he, -, hm⟩ := Table.exists_run_of_mem_call hm
  have hplan := Table.plan_meets hL he 0 input.toList
  obtain ⟨-, g, -, rfl⟩ := hplan.of_run (fun rule s _ => Table.call_obeys hL _ _ _ _ rule s) m hm
  rw [Rule.collapse, hcollapse e he]
  exact ⟨rfl, rfl⟩

/-- **Tree geometry.** The tree of a parse fits the input; a root whose rule does not collapse is the
front of the input up to the rest; and nothing that matching or finishing cuts is out of range. -/
theorem parse_fits (p : Parser) (input : String) (target : Option String) (tree : Tree)
    (h : p.parse input target = .ok tree) :
    tree.Fits input ∧
      ((∀ e, p.table.entry? (p.startName target) = some e → e.rule.collapseSingleChild = false) →
        tree.root.start = 0 ∧ tree.root.text ++ tree.rest = input) ∧
      p.table.CutsInRange := by
  obtain ⟨m, hm, rfl⟩ := exists_match_of_parse h
  have hobeys := startMatch_obeys (Law.geometry_respected _) hm
  refine ⟨hobeys.finish_fits _, fun hcollapse => ?_, p.table.cutsInRange⟩
  obtain ⟨hleft, hafter⟩ := startMatch_places hm hcollapse
  rw [Match.finish, finish_eq, hleft, hafter]
  exact ⟨offset_length _, slice_append_rest hobeys.rest⟩

/-- A grammar of lists in brackets. An opening bracket commits a list, and what is no item is skipped up
to the closing one. -/
def bracketed : Parser where
  table :=
    { entries :=
        [{ name := "List"
           alternatives := [[.literal "(", .reference (.ofText "Item+"), .reference (.ofText "Close")]]
           pinAt := some 1
           implicitWhitespace := some true },
          { name := "Item", alternatives := [[.literal "é"]], recoverTo := some "Close" },
          { name := "Close", alternatives := [[.literal ")"]] },
          { name := "WS", alternatives := [[.literal " "]] }].map fun r => ⟨r, r.phases⟩
      whitespace := "WS" }
  options := { keepUpperRules := true }

theorem bracketed_parses : ∃ tree, bracketed.parse "(é x) z" none = .ok tree := by
  have hok : (bracketed.parse "(é x) z" none).toOption.isSome = true := by decide +kernel
  cases h : bracketed.parse "(é x) z" none with
  | error failure =>
    rw [h] at hok
    cases hok
  | ok tree => exact ⟨tree, rfl⟩

theorem bracketed_fits : ∃ tree, bracketed.parse "(é x) z" none = .ok tree ∧ tree.Fits "(é x) z" ∧
    tree.root.start = 0 ∧ tree.root.text ++ tree.rest = "(é x) z" := by
  obtain ⟨tree, h⟩ := bracketed_parses
  obtain ⟨hfits, hroot, -⟩ := parse_fits bracketed "(é x) z" none tree h
  refine ⟨tree, h, hfits, hroot fun e he => ?_⟩
  have hplain : (bracketed.table.entry? (bracketed.startName none)).all
      (fun e => e.rule.collapseSingleChild = false) = true := by decide +kernel
  simpa [he] using hplain

end Parser

end Grammarian
