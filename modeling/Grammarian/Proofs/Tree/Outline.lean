import Grammarian.Proofs.Text.Slice
import Grammarian.Proofs.Tree.Nodes

/-!
# Outlines

The part of a tree that does not depend on the places of its nodes: the text of those kinds that are told
apart by their text, the tokens, and the children of all others. Drafts show an outline when every text
they are finished for gives it to their nodes, without any error.
-/

namespace Grammarian

namespace Node

mutual

/-- The node without its span: a token with its text, any other node with the outlines of its children. -/
def outline (isToken : String → Bool) : Node → Node
  | ⟨kind, text, _, _, children⟩ =>
    if isToken kind then ⟨kind, text, 0, 0, []⟩
    else ⟨kind, "", 0, 0, outlineAll isToken children⟩

def outlineAll (isToken : String → Bool) : List Node → List Node
  | [] => []
  | n :: ns => outline isToken n :: outlineAll isToken ns

end

/-- The outline of a token. -/
def token (kind : String) (text : List Char) : Node := ⟨kind, String.ofList text, 0, 0, []⟩

/-- The outline of a node that is told by its children. -/
def branch (kind : String) (children : List Node) : Node := ⟨kind, "", 0, 0, children⟩

variable {isToken : String → Bool}

theorem outlineAll_eq_map (isToken : String → Bool) (ns : List Node) :
    outlineAll isToken ns = ns.map (outline isToken) := by
  induction ns with
  | nil => rfl
  | cons n ns ih => rw [outlineAll, List.map_cons, ih]

@[simp] theorem outline_kind (n : Node) : (n.outline isToken).kind = n.kind := by
  obtain ⟨kind, text, start, stop, children⟩ := n
  rw [outline]
  split
  · rfl
  · rfl

theorem outline_text {n : Node} (h : isToken n.kind = true) : (n.outline isToken).text = n.text := by
  obtain ⟨kind, text, start, stop, children⟩ := n
  have h : isToken kind = true := h
  rw [outline, if_pos h]

theorem outline_children {n : Node} (h : isToken n.kind = false) :
    (n.outline isToken).children = n.children.map (outline isToken) := by
  obtain ⟨kind, text, start, stop, children⟩ := n
  have h : ¬ isToken kind = true := Bool.eq_false_iff.1 h
  rw [outline, if_neg h, outlineAll_eq_map]

theorem find?_outline (ns : List Node) (kind : String) :
    (ns.map (outline isToken)).find? (·.kind = kind) = (ns.find? (·.kind = kind)).map (outline isToken) := by
  rw [List.find?_map]
  congr 2
  funext n
  simp

theorem filter_outline (ns : List Node) (p : String → Bool) :
    (ns.map (outline isToken)).filter (fun n => p n.kind) = (ns.filter fun n => p n.kind).map (outline isToken) := by
  simp [List.filter_map, Function.comp_def]

theorem childrenOf_outline {n : Node} (hn : isToken n.kind = false) (kind : String) :
    (n.outline isToken).childrenOf kind = (n.childrenOf kind).map (outline isToken) := by
  rw [childrenOf, childrenOf, outline_children hn]
  exact filter_outline n.children (· = kind)

/-- The text of the first child of a kind of tokens. -/
theorem firstChildOf?_text_outline {n : Node} {kind : String} (hn : isToken n.kind = false)
    (hkind : isToken kind = true) :
    ((n.outline isToken).firstChildOf? kind).map (·.text) = (n.firstChildOf? kind).map (·.text) := by
  rw [firstChildOf?, firstChildOf?, outline_children hn, find?_outline, Option.map_map]
  refine Option.map_congr fun child hfound => ?_
  have hchild : child.kind = kind := by simpa using List.find?_some hfound
  exact outline_text (by rw [hchild]; exact hkind)

end Node

namespace Draft

variable {isToken : String → Bool} {input mid text rest : List Char} {kind : String}
  {ds es : List Draft} {ns ms : List Node}

/-- The drafts, made while `input` was left, show the outlines `ns`. -/
def Shows (isToken : String → Bool) (input : List Char) (ds : List Draft) (ns : List Node) : Prop :=
  ∀ whole, input <:+ whole →
    errorsAll whole ds = [] ∧ Node.outlineAll isToken (finishAll whole false ds) = ns

theorem shows_nil (input : List Char) : Shows isToken input [] [] := fun _ _ => ⟨rfl, rfl⟩

theorem Shows.append (h : Shows isToken input ds ns) (hmid : mid <:+ input)
    (h' : Shows isToken mid es ms) : Shows isToken input (ds ++ es) (ns ++ ms) := by
  intro whole hwhole
  obtain ⟨herrors, hnodes⟩ := h whole hwhole
  obtain ⟨herrors', hnodes'⟩ := h' whole (hmid.trans hwhole)
  simp only [errorsAll_eq_flatMap, finishAll_eq, Node.outlineAll_eq_map] at herrors hnodes herrors' hnodes' ⊢
  constructor
  · rw [List.flatMap_append, herrors, herrors', List.append_nil]
  · rw [List.filter_append, List.map_append, List.map_append, hnodes, hnodes']

/-- A node without an error of its own has the errors of its children. -/
theorem errorsAll_singleton (whole : List Char) (left after : Nat) (ds : List Draft) :
    errorsAll whole [⟨kind, none, left, after, ds⟩] = errorsAll whole ds := by
  simp [errorsAll, errors]

/-- The node of a token. -/
theorem Shows.token (htoken : isToken kind = true) (hkeeps : keeps false kind = true)
    (h : Shows isToken (text ++ rest) ds ns) :
    Shows isToken (text ++ rest) [⟨kind, none, (text ++ rest).length, rest.length, ds⟩]
      [Node.token kind text] := by
  intro whole hwhole
  obtain ⟨front, hfront⟩ := hwhole
  refine ⟨?_, ?_⟩
  · rw [errorsAll_singleton]
    exact (h whole ⟨front, hfront⟩).1
  · rw [finishAll, if_pos hkeeps, finishAll, finish, Node.outlineAll, Node.outlineAll, Node.outline,
      if_pos htoken, slice_of_append hfront]
    rfl

/-- The node of a rule that is told by its children. -/
theorem Shows.branch (htoken : isToken kind = false) (hkeeps : keeps false kind = true)
    (h : Shows isToken input ds ns) (left after : Nat) :
    Shows isToken input [⟨kind, none, left, after, ds⟩] [Node.branch kind ns] := by
  intro whole hwhole
  obtain ⟨herrors, hnodes⟩ := h whole hwhole
  refine ⟨?_, ?_⟩
  · rw [errorsAll_singleton]
    exact herrors
  · rw [finishAll, if_pos hkeeps, finishAll, finish, Node.outlineAll, Node.outlineAll, Node.outline,
      if_neg (by simp [htoken]), hnodes]
    rfl

/-- The node of a rule that is left out. -/
theorem Shows.left_out (hkeeps : keeps false kind = false) (h : Shows isToken input ds ns)
    (left after : Nat) : Shows isToken input [⟨kind, none, left, after, ds⟩] [] := by
  intro whole hwhole
  refine ⟨?_, ?_⟩
  · rw [errorsAll_singleton]
    exact (h whole hwhole).1
  · rw [finishAll, if_neg (by simp [hkeeps])]
    rfl

end Draft

end Grammarian
