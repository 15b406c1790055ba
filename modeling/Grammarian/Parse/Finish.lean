import Grammarian.Parse.Draft
import Grammarian.Parse.Options
import Grammarian.Grammar.Rule
import Grammarian.Text.Utf8
import Grammarian.Tree.Node

/-!
# Finishing a tree

A draft becomes a tree: places become byte offsets, the text of each node is cut from the input, the
nodes of helper rules are left out, and those of internal rules unless they are asked for. The errors
of all nodes, left out or not, are gathered for the root.
-/

namespace Grammarian

namespace Draft

/-- The byte offset of the place of `input` with `left` characters after it. -/
def offset (input : List Char) (left : Nat) : Nat :=
  Text.byteCount (input.take (input.length - left))

/-- The part of `input` between two places. -/
def slice (input : List Char) (left after : Nat) : String :=
  String.ofList ((input.drop (input.length - left)).take (left - after))

/-- Whether nodes of a kind stay in the tree. -/
def keeps (keepUpperRules : Bool) (kind : String) : Bool :=
  !isHelperName kind && (keepUpperRules || !isInternalName kind)

mutual

/-- The finished node. -/
def finish (input : List Char) (keepUpperRules : Bool) : Draft → Node
  | ⟨kind, _, left, after, children⟩ =>
    { kind
      text := slice input left after
      start := offset input left
      stop := offset input after
      children := finishAll input keepUpperRules children }

/-- The finished nodes of those that stay. -/
def finishAll (input : List Char) (keepUpperRules : Bool) : List Draft → List Node
  | [] => []
  | d :: ds =>
    if keeps keepUpperRules d.kind then
      finish input keepUpperRules d :: finishAll input keepUpperRules ds
    else finishAll input keepUpperRules ds

end

/-- The error that a fault stands for. -/
def errorOf (input : List Char) (left after : Nat) (fault : Fault) : ParseError :=
  { cause := match fault with
      | .missing name => .expected name
      | .skipped rule => .unexpectedInput rule
    text := slice input left after
    start := offset input left
    stop := offset input after }

mutual

/-- The errors of a draft, those of a node before those of its children. -/
def errors (input : List Char) : Draft → List ParseError
  | ⟨_, fault, left, after, children⟩ =>
    (fault.map (errorOf input left after)).toList ++ errorsAll input children

def errorsAll (input : List Char) : List Draft → List ParseError
  | [] => []
  | d :: ds => errors input d ++ errorsAll input ds

end

end Draft

namespace Match

/-- The error for the input left over, if there is any. -/
def trailing (m : Match) (input : List Char) : List ParseError :=
  if m.rest.isEmpty then []
  else
    [{ cause := .trailingInput m.draft.kind
       text := String.ofList m.rest
       start := Draft.offset input m.rest.length
       stop := Text.byteCount input }]

/-- The tree of a match at the front of `input`. -/
def finish (m : Match) (input : List Char) (options : Options) : Tree :=
  { root := m.draft.finish input options.keepUpperRules
    errors := m.draft.errors input ++ m.trailing input
    rest := String.ofList m.rest }

end Match

end Grammarian
