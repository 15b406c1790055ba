import Grammarian.Proofs.Notation.Surface

/-!
# What trees stand for

The rules of a tree depend on its outline only, and those of an outline are made item by item and line by
line: `Item.symbols` and `Line.compile`.
-/

namespace Grammarian.Notation

/-! ## Outlines -/

section Outline

variable {n : Node} {ns : List Node} {kind : String}

theorem childText_outline (hn : isToken n.kind = false) (hkind : isToken kind = true) :
    Attributes.childText (n.outline isToken) kind = Attributes.childText n kind := by
  rw [Attributes.childText, Attributes.childText, Node.firstChildOf?_text_outline hn hkind]

theorem addAll_outline (attrs : Attributes) (hns : ∀ n ∈ ns, isToken n.kind = false) :
    Attributes.addAll attrs (ns.map (Node.outline isToken)) = Attributes.addAll attrs ns := by
  induction ns generalizing attrs with
  | nil => rfl
  | cons n ns ih =>
    rw [List.forall_mem_cons] at hns
    rw [List.map_cons, Attributes.addAll, Attributes.addAll,
      childText_outline hns.1 (show isToken "NCName" = true by decide),
      childText_outline hns.1 (show isToken "AttributeValue" = true by decide), ih _ hns.2]

/-- Attributes are read from a bare tree as from the tree. -/
theorem ofChildren_outline (ns : List Node) :
    Attributes.ofChildren (ns.map (Node.outline isToken)) = Attributes.ofChildren ns := by
  rw [Attributes.ofChildren, Attributes.ofChildren, Node.find?_outline]
  cases hfound : ns.find? (·.kind = "Attributes") with
  | none => rfl
  | some n =>
    have hn : n.kind = "Attributes" := by simpa using List.find?_some hfound
    have htoken : isToken n.kind = false := by
      rw [hn]
      decide
    simp only [Option.map_some]
    rw [Node.childrenOf_outline htoken]
    refine addAll_outline _ fun m hm => ?_
    have hkind : m.kind = "Attribute" := by simpa using (List.mem_filter.1 hm).2
    rw [hkind]
    decide

theorem markBefore_outline (previous : Option Node) :
    markBefore (previous.map (Node.outline isToken)) = markBefore previous := by
  cases previous with
  | none => rfl
  | some n =>
    by_cases hkind : n.kind = "PrimaryPreDecoration"
    · have htext : (n.outline isToken).text = n.text := Node.outline_text (by rw [hkind]; decide)
      simp [markBefore, hkind, htext]
    · simp [markBefore, hkind]

theorem markAfter_outline (next : Option Node) :
    markAfter (next.map (Node.outline isToken)) = markAfter next := by
  cases next with
  | none => rfl
  | some n =>
    by_cases hkind : n.kind = "PrimaryDecoration"
    · have htext : (n.outline isToken).text = n.text := Node.outline_text (by rw [hkind]; decide)
      simp [markAfter, hkind, htext]
    · simp [markAfter, hkind]

end Outline

section Compile

variable {style : Style}

mutual

/-- A production compiles from its bare tree as from its tree. -/
theorem production_outline (name : String) (inherited : Option Attributes) : (n : Node) →
    isToken n.kind = false → ∀ c,
      production style name inherited (n.outline isToken) c = production style name inherited n c
  | ⟨kind, text, start, stop, children⟩, hn, c => by
    have hn' : ¬ isToken kind = true := Bool.eq_false_iff.1 hn
    rw [Node.outline, if_neg hn', production, production, Node.outlineAll_eq_map, ofChildren_outline]
    simp only [sequences_outline name _ children]

theorem sequences_outline (parent : String) (scope : Attributes) : (ns : List Node) → ∀ c,
    sequences style parent scope (ns.map (Node.outline isToken)) c = sequences style parent scope ns c
  | [], c => rfl
  | n :: ns, c => by
    rw [List.map_cons, sequences, sequences, Node.outline_kind]
    split
    next hkind =>
      rw [sequence_outline parent scope n (by rw [hkind]; decide)]
      simp only [sequences_outline parent scope ns]
    next => exact sequences_outline parent scope ns c

theorem sequence_outline (parent : String) (scope : Attributes) : (n : Node) → isToken n.kind = false →
    ∀ c, sequence style parent scope (n.outline isToken) c = sequence style parent scope n c
  | ⟨kind, text, start, stop, children⟩, hn, c => by
    have hn' : ¬ isToken kind = true := Bool.eq_false_iff.1 hn
    rw [Node.outline, if_neg hn', sequence, sequence, Node.outlineAll_eq_map]
    exact items_outline parent scope children none c

theorem items_outline (parent : String) (scope : Attributes) : (ns : List Node) → ∀ previous c,
    items style parent scope (previous.map (Node.outline isToken)) (ns.map (Node.outline isToken)) c =
      items style parent scope previous ns c
  | [], previous, c => rfl
  | n :: ns, previous, c => by
    have htext : isToken n.kind = true → (n.outline isToken).text = n.text := Node.outline_text
    have hnext : ∀ c, items style parent scope (some (n.outline isToken)) (ns.map (Node.outline isToken)) c =
        items style parent scope (some n) ns c := items_outline parent scope ns (some n)
    rw [List.map_cons, items, items, markBefore_outline, List.head?_map, markAfter_outline, Node.outline_kind]
    simp only [hnext]
    split
    next => rfl
    next hkind => rw [htext (by rw [hkind]; decide)]
    next hkind => simp only [production_outline _ _ n (by rw [hkind]; decide)]
    next hkind => rw [htext (by rw [hkind]; decide)]
    next hkind => rw [htext (by rw [hkind]; decide)]
    next hkind => rw [htext (by rw [hkind]; decide)]
    next => rfl

end

/-- Productions compile from their bare trees as from their trees. -/
theorem productions_outline {ns : List Node} (hns : ∀ n ∈ ns, isToken n.kind = false) (c : Compiled) :
    productions style c (ns.map (Node.outline isToken)) = productions style c ns := by
  induction ns generalizing c with
  | nil => rfl
  | cons n ns ih =>
    rw [List.forall_mem_cons] at hns
    rw [List.map_cons, productions, productions, childText_outline hns.1 (show isToken "NCName" = true by decide),
      production_outline _ _ n hns.1]
    simp only [ih hns.2]

/-- The rules of a tree are those of its outline. -/
theorem rulesOf_outline {root : Node} (hroot : isToken root.kind = false) :
    rulesOf style (root.outline isToken) = rulesOf style root := by
  rw [rulesOf, rulesOf, Node.childrenOf_outline hroot, Node.outline_children hroot, ofChildren_outline,
    productions_outline]
  intro n hn
  have hkind : n.kind = "Production" := by simpa using (List.mem_filter.1 hn).2
  rw [hkind]
  decide

end Compile

/-! ## Items -/

section Items

variable {style : Style} {parent : String} {scope : Attributes} {c : Compiled} {choice : List (List Item)}

/-- The mark of a symbol for a mark before an item. -/
def leadMark (lead : List Char) : String := if lead = ['~'] then "@" else String.ofList lead

/-- The symbols of a token. -/
def tokenSymbols (style : Style) (parent : String) (scope : Attributes) (kind : String) (lead text tail : List Char)
    (c : Compiled) : Except GrammarFailure (List Symbol × Compiled) :=
  match kind with
  | "NCName" => .ok ([marked (leadMark lead) (String.ofList text) (String.ofList tail)], c)
  | "StringLiteral" =>
    (literalSymbols style scope (leadMark lead) (String.ofList text) (String.ofList tail)).map (·, c)
  | _ =>
    (classSymbol parent scope (leadMark lead) (String.ofList text) (String.ofList tail) c).map fun r =>
      ([r.1], r.2)

namespace Item

mutual

/-- The symbols of an item, and its helpers added. -/
def symbols (style : Style) (parent : String) (scope : Attributes) :
    Item → Compiled → Except GrammarFailure (List Symbol × Compiled)
  | token kind lead text tail, c => tokenSymbols style parent scope kind lead text tail c
  | group lead choice tail, c => do
    let name := c.helperName parent
    let (alternatives, c) ← choiceSymbols style name scope choice c.countHelper
    let r ← ruleWith [] scope name alternatives
    pure ([marked (leadMark lead) name (String.ofList tail)], c.push r)

def sequenceSymbols (style : Style) (parent : String) (scope : Attributes) :
    List Item → Compiled → Except GrammarFailure (List Symbol × Compiled)
  | [], c => pure ([], c)
  | i :: is, c => do
    let (symbols, c) ← symbols style parent scope i c
    let (more, c) ← sequenceSymbols style parent scope is c
    pure (symbols ++ more, c)

def choiceSymbols (style : Style) (parent : String) (scope : Attributes) :
    List (List Item) → Compiled → Except GrammarFailure (List (List Symbol) × Compiled)
  | [], c => pure ([], c)
  | s :: ss, c => do
    let (symbols, c) ← sequenceSymbols style parent scope s c
    let (more, c) ← choiceSymbols style parent scope ss c
    pure (symbols :: more, c)

end

end Item

/-- Of the item before, only the mark it leaves matters. -/
theorem items_of_markBefore_eq {previous previous' : Option Node}
    (h : markBefore previous = markBefore previous') (ns : List Node) :
    items style parent scope previous ns c = items style parent scope previous' ns c := by
  cases ns with
  | nil => rfl
  | cons n ns => rw [items, items, h]

/-- Marks are no symbols. -/
theorem items_mark {kind : String} (hkind : kind = "PrimaryPreDecoration" ∨ kind = "PrimaryDecoration")
    (previous : Option Node) (marks : List Char) (ns : List Node) :
    items style parent scope previous (.token kind marks :: ns) c =
      items style parent scope (some (.token kind marks)) ns c := by
  rcases hkind with rfl | rfl
  · simp [items, Node.token]
  · simp [items, Node.token]

/-- A token compiles with the marks around it. -/
theorem items_token {kind : String} {lead text tail : List Char} (htext : Lexeme kind text)
    {previous : Option Node} (hlead : markBefore previous = leadMark lead) {ns : List Node}
    (htail : markAfter ns.head? = String.ofList tail) :
    items style parent scope previous (.token kind text :: ns) c = (do
      let (symbols, c) ← tokenSymbols style parent scope kind lead text tail c
      let (more, c) ← items style parent scope (some (.token kind text)) ns c
      pure (symbols ++ more, c)) := by
  rw [items, hlead, htail]
  cases htext with
  | name h => rfl
  | quoted h =>
    simp only [Node.token, tokenSymbols]
    cases literalSymbols style scope (leadMark lead) (String.ofList text) (String.ofList tail) with
    | error e => rfl
    | ok symbols => rfl
  | code h =>
    simp only [Node.token, tokenSymbols]
    cases classSymbol parent scope (leadMark lead) (String.ofList text) (String.ofList tail) c with
    | error e => rfl
    | ok r => rfl
  | charClass h =>
    simp only [Node.token, tokenSymbols]
    cases classSymbol parent scope (leadMark lead) (String.ofList text) (String.ofList tail) c with
    | error e => rfl
    | ok r => rfl

/-- What the nodes of a part of an alternative stand for, whatever follows. -/
def Compiles (style : Style) (i : Item) : Prop :=
  ∀ parent scope {previous : Option Node} {more : List Node} (c : Compiled), markBefore previous = "" →
    markAfter more.head? = "" →
    items style parent scope previous (i.nodes ++ more) c = (do
      let (symbols, c) ← i.symbols style parent scope c
      let (rest, c) ← items style parent scope none more c
      pure (symbols ++ rest, c))

/-- An item is no mark of the item before it. -/
theorem markAfter_nodes {i : Item} (hi : i.Legible style) (more : List Node) :
    markAfter (i.nodes ++ more).head? = "" := by
  have hmarks : ∀ {lead : List Char} {n : Node} {ns : List Node}, n.kind ≠ "PrimaryDecoration" →
      markAfter (markNodes "PrimaryPreDecoration" lead ++ (n :: ns)).head? = "" := by
    intro lead n ns hn
    rw [markNodes]
    split
    next => simp [markAfter, hn]
    next => simp [markAfter, Node.token]
  cases hi with
  | token htext hlead htail =>
    rw [Item.nodes, List.append_assoc]
    refine hmarks ?_
    cases htext with
    | name h => simp [Node.token]
    | quoted h => simp [Node.token]
    | code h => simp [Node.token]
    | charClass h => simp [Node.token]
  | group hlead htail hne hnes h =>
    rw [Item.nodes, List.append_assoc]
    exact hmarks (by simp [Node.branch])

/-- The nodes of a sequence compile as its items do. -/
theorem items_sequence {s : List Item} (h : ∀ i ∈ s, i.Legible style ∧ Compiles style i) (parent : String)
    (scope : Attributes) (c : Compiled) :
    items style parent scope none (s.flatMap Item.nodes) c = Item.sequenceSymbols style parent scope s c := by
  induction s generalizing c with
  | nil => rfl
  | cons i s ih =>
    rw [List.forall_mem_cons] at h
    have hnext : markAfter (s.flatMap Item.nodes).head? = "" := by
      cases s with
      | nil => rfl
      | cons j s =>
        rw [List.flatMap_cons]
        exact markAfter_nodes (h.2 j List.mem_cons_self).1 _
    rw [List.flatMap_cons, h.1.2 parent scope c rfl hnext, Item.sequenceSymbols]
    simp only [ih h.2]

/-- The nodes of a choice compile as its sequences do. -/
theorem sequences_choice {choice : List (List Item)} (h : ∀ s ∈ choice, ∀ i ∈ s, i.Legible style ∧ Compiles style i)
    (parent : String) (scope : Attributes) {ns : List Node} (hns : ∀ n ∈ ns, n.kind ≠ "SequenceOrDifference")
    (c : Compiled) :
    sequences style parent scope (choice.map Item.sequenceNode ++ ns) c =
      Item.choiceSymbols style parent scope choice c := by
  induction choice generalizing c with
  | nil =>
    rw [List.map_nil, List.nil_append]
    induction ns with
    | nil => rfl
    | cons n ns ih =>
      rw [List.forall_mem_cons] at hns
      rw [sequences, if_neg hns.1]
      exact ih hns.2
  | cons s choice ih =>
    rw [List.forall_mem_cons] at h
    have hkind : (Item.sequenceNode s).kind = "SequenceOrDifference" := rfl
    have hsequence : ∀ c, sequence style parent scope (Item.sequenceNode s) c =
        Item.sequenceSymbols style parent scope s c := fun c => items_sequence h.1 parent scope c
    rw [List.map_cons, List.cons_append, sequences, if_pos hkind, hsequence, Item.choiceSymbols]
    simp only [ih h.2]

/-- The attributes of a group are none. -/
theorem ofChildren_choice (choice : List (List Item)) :
    Attributes.ofChildren (choice.map Item.sequenceNode) = .ok [] := by
  have hnone : (choice.map Item.sequenceNode).find? (·.kind = "Attributes") = none := by
    rw [List.find?_eq_none]
    intro n hn
    obtain ⟨s, -, rfl⟩ := List.mem_map.1 hn
    simp [Item.sequenceNode, Node.branch]
  rw [Attributes.ofChildren, hnone]

/-- A mark behind an item is passed over by what follows. -/
theorem items_tail {tail : List Char} {previous : Option Node} {more : List Node}
    (hprevious : markBefore previous = "") :
    items style parent scope previous (markNodes "PrimaryDecoration" tail ++ more) c =
      items style parent scope none more c := by
  rw [markNodes]
  split
  next => exact items_of_markBefore_eq hprevious more
  next =>
    rw [List.singleton_append, items_mark (Or.inr rfl)]
    exact items_of_markBefore_eq (by simp [markBefore, Node.token]) more

/-- A mark in front of an item is what the item finds before it. -/
theorem items_lead (parent : String) {lead : List Char} {previous : Option Node}
    (hprevious : markBefore previous = "") (ns : List Node) : ∃ previous', markBefore previous' = leadMark lead ∧
      items style parent scope previous (markNodes "PrimaryPreDecoration" lead ++ ns) c =
        items style parent scope previous' ns c := by
  rw [markNodes]
  split
  next hempty => exact ⟨previous, by rw [hprevious, hempty]; rfl, rfl⟩
  next =>
    refine ⟨_, ?_, items_mark (Or.inl rfl) previous lead ns⟩
    have htilde : String.ofList lead = "~" ↔ lead = ['~'] := by
      rw [← String.toList_inj, String.toList_ofList]
      rfl
    simp [markBefore, Node.token, leadMark, htilde]

theorem markAfter_tail {tail : List Char} {more : List Node} (hmore : markAfter more.head? = "") :
    markAfter (markNodes "PrimaryDecoration" tail ++ more).head? = String.ofList tail := by
  rw [markNodes]
  split
  next hempty =>
    rw [hempty]
    exact hmore
  next => simp [markAfter, Node.token]

/-- A group compiles as a production with a name of its own. -/
theorem production_group (name : String) (h : ∀ s ∈ choice, ∀ i ∈ s, i.Legible style ∧ Compiles style i) :
    production style name (some scope) (.branch "SubItem" (choice.map Item.sequenceNode)) c = (do
      let (alternatives, c) ← Item.choiceSymbols style name scope choice c
      let r ← ruleWith [] scope name alternatives
      pure (c.push r)) := by
  have hsequences := sequences_choice h name scope (show ∀ n ∈ [], _ from nofun) c
  rw [List.append_nil] at hsequences
  rw [Node.branch, production, ofChildren_choice]
  simp only [Option.getD_some]
  rw [← hsequences]
  rfl

/-- An item stands for its symbols, whatever stands behind it. The induction is on the nesting of groups. -/
theorem compiles_item {i : Item} (hi : i.Legible style) : Compiles style i := by
  induction i with
  | token kind lead text tail =>
    intro parent scope previous more c hprevious hmore
    cases hi with
    | token htext hlead htail =>
      obtain ⟨previous', hbefore, hitems⟩ := items_lead parent hprevious
        (.token kind text :: (markNodes "PrimaryDecoration" tail ++ more))
      have hkind : markBefore (some (.token kind text)) = "" := by
        cases htext with
        | name h => simp [markBefore, Node.token]
        | quoted h => simp [markBefore, Node.token]
        | code h => simp [markBefore, Node.token]
        | charClass h => simp [markBefore, Node.token]
      rw [Item.nodes, List.append_assoc, List.cons_append, hitems,
        items_token htext hbefore (markAfter_tail hmore), Item.symbols]
      simp only [items_tail hkind]
  | group lead choice tail ih =>
    intro parent scope previous more c hprevious hmore
    cases hi with
    | group hlead htail hne hnes hitems =>
      have hall : ∀ s ∈ choice, ∀ i ∈ s, i.Legible style ∧ Compiles style i :=
        fun s hs i hi => ⟨hitems s hs i hi, ih s hs i hi (hitems s hs i hi)⟩
      obtain ⟨previous', hbefore, hlead⟩ := items_lead parent hprevious
        (.branch "SubItem" (choice.map Item.sequenceNode) :: (markNodes "PrimaryDecoration" tail ++ more))
      have hkind : markBefore (some (.branch "SubItem" (choice.map Item.sequenceNode))) = "" := by
        simp [markBefore, Node.branch]
      rw [Item.nodes_group, List.append_assoc, List.cons_append, hlead, items, hbefore, markAfter_tail hmore,
        Item.symbols]
      simp only [items_tail hkind, production_group _ hall]
      cases Item.choiceSymbols style (c.helperName parent) scope choice c.countHelper with
      | error e => rfl
      | ok r =>
        cases ruleWith [] scope (c.helperName parent) r.1 with
        | error e => rfl
        | ok h => rfl

end Items

/-! ## Lines -/

section Lines

variable {style : Style} {as : List (List Char × List Char)}

/-- Adds attributes as they are written; a name may not come twice. -/
def readAttributes (attrs : Attributes) : List (List Char × List Char) → Except GrammarFailure Attributes
  | [] => .ok attrs
  | (name, value) :: as =>
    if (attrs.get? (String.ofList name)).isSome then .error (.duplicateAttribute (String.ofList name))
    else readAttributes (attrs ++ [(String.ofList name, String.ofList value)]) as

theorem addAll_attributeNode (attrs : Attributes) (as : List (List Char × List Char)) :
    Attributes.addAll attrs (as.map attributeNode) = readAttributes attrs as := by
  induction as generalizing attrs with
  | nil => rfl
  | cons a as ih =>
    have hname : Attributes.childText (attributeNode a) "NCName" = String.ofList a.1 := rfl
    have hvalue : Attributes.childText (attributeNode a) "AttributeValue" = String.ofList a.2 := by
      simp [Attributes.childText, Node.firstChildOf?, attributeNode, Node.branch, Node.token]
    rw [List.map_cons, Attributes.addAll, hname, hvalue, readAttributes]
    simp only [ih]

/-- The attributes among nodes of other kinds. -/
theorem ofChildren_append {before : List Node} (hbefore : ∀ n ∈ before, n.kind ≠ "Attributes")
    {after : List Node} (hafter : ∀ n ∈ after, n.kind ≠ "Attributes") :
    Attributes.ofChildren (before ++ (attributesNodes as ++ after)) = readAttributes [] as := by
  have hfront : before.find? (·.kind = "Attributes") = none := by
    rw [List.find?_eq_none]
    simpa using hbefore
  have hback : after.find? (·.kind = "Attributes") = none := by
    rw [List.find?_eq_none]
    simpa using hafter
  rw [Attributes.ofChildren, List.find?_append, List.find?_append, hfront, hback, attributesNodes]
  by_cases hempty : as = []
  · rw [if_pos hempty, hempty]
    rfl
  · have hall : (as.map attributeNode).filter (·.kind = "Attribute") = as.map attributeNode := by
      rw [List.filter_eq_self]
      intro n hn
      obtain ⟨a, -, rfl⟩ := List.mem_map.1 hn
      simp [attributeNode, Node.branch]
    rw [if_neg hempty, ← addAll_attributeNode, ← hall]
    simp [Node.branch, Node.childrenOf]

/-- Adds the rules of a line. -/
def Line.compile (style : Style) (l : Line) (c : Compiled) : Except GrammarFailure Compiled := do
  let own ← readAttributes [] l.attributes
  let (alternatives, c) ← Item.choiceSymbols style (String.ofList l.name) own l.choice c
  let r ← ruleWith own own (String.ofList l.name) alternatives
  pure (c.push r)

/-- Adds the rules of several lines. -/
def compileLines (style : Style) (c : Compiled) : List Line → Except GrammarFailure Compiled
  | [] => pure c
  | l :: lines => do
    let c ← l.compile style c
    compileLines style c lines

/-- The rule with the attribute of the whole grammar. -/
def withDefault (skips : Bool) (r : Rule) : Rule :=
  if skips && r.implicitWhitespace.isNone then { r with implicitWhitespace := some true } else r

/-- The alternatives of a line are those among the children of its node. -/
theorem sequences_line {l : Line} (hl : ∀ s ∈ l.choice, ∀ i ∈ s, i.Legible style) (parent : String)
    (scope : Attributes) (c : Compiled) : sequences style parent scope l.node.children c =
      Item.choiceSymbols style parent scope l.choice c := by
  have hskip : (Node.token "NCName" l.name).kind ≠ "SequenceOrDifference" := by simp [Node.token]
  rw [Line.node, Node.branch, sequences, if_neg hskip]
  refine sequences_choice (fun s hs i hi => ⟨hl s hs i hi, compiles_item (hl s hs i hi)⟩) _ scope ?_ c
  rw [attributesNodes]
  split
  next => simp
  next => simp [Node.branch]

/-- A line's node compiles as the line does. -/
theorem production_line {l : Line} (hl : ∀ s ∈ l.choice, ∀ i ∈ s, i.Legible style) (c : Compiled) :
    production style (Attributes.childText l.node "NCName") none l.node c = l.compile style c := by
  have hname : Attributes.childText l.node "NCName" = String.ofList l.name := rfl
  have hown : Attributes.ofChildren l.node.children = readAttributes [] l.attributes := by
    have hsplit : l.node.children =
        (.token "NCName" l.name :: l.choice.map Item.sequenceNode) ++ (attributesNodes l.attributes ++ []) := by
      simp [Line.node, Node.branch]
    rw [hsplit]
    refine ofChildren_append ?_ (by simp)
    simp [Node.token, Node.branch, Item.sequenceNode]
  rw [hname]
  have hnode : l.node = ⟨"Production", "", 0, 0, l.node.children⟩ := rfl
  rw [hnode, production, hown]
  simp only [Option.getD_none, sequences_line hl]
  rfl

/-- The nodes of lines compile as the lines do. -/
theorem productions_lines {lines : List Line} (h : ∀ l ∈ lines, ∀ s ∈ l.choice, ∀ i ∈ s, i.Legible style)
    (c : Compiled) : productions style c (lines.map Line.node) = compileLines style c lines := by
  induction lines generalizing c with
  | nil => rfl
  | cons l lines ih =>
    rw [List.forall_mem_cons] at h
    rw [List.map_cons, productions, production_line h.1, compileLines]
    simp only [ih h.2]

theorem childrenOf_grammarNode (as : List (List Char × List Char)) (lines : List Line) :
    (grammarNode as lines).childrenOf "Production" = lines.map Line.node := by
  have hlines : (lines.map Line.node).filter (·.kind = "Production") = lines.map Line.node := by
    rw [List.filter_eq_self]
    intro n hn
    obtain ⟨l, -, rfl⟩ := List.mem_map.1 hn
    simp [Line.node, Node.branch]
  have hnone : (attributesNodes as).filter (·.kind = "Production") = [] := by
    rw [attributesNodes]
    split
    next => rfl
    next => simp [Node.branch]
  rw [Node.childrenOf, grammarNode, Node.branch, List.filter_append, hlines, hnone, List.nil_append]

/-- **The rules of a grammar of lines.** -/
theorem rulesOf_grammarNode {lines : List Line} (h : ∀ l ∈ lines, ∀ s ∈ l.choice, ∀ i ∈ s, i.Legible style) :
    rulesOf style (grammarNode as lines) = (do
      let attrs ← readAttributes [] as
      let c ← compileLines style {} lines
      pure (c.rules.map (withDefault (attrs.get? "ws" = some "implicit")))) := by
  have hattrs : Attributes.ofChildren (grammarNode as lines).children = readAttributes [] as := by
    refine ofChildren_append (show ∀ n ∈ [], _ from nofun) fun n hn => ?_
    obtain ⟨l, -, rfl⟩ := List.mem_map.1 hn
    simp [Line.node, Node.branch]
  have hdefault : ∀ (skips : Prop) [Decidable skips] (rules : List Rule), (if skips then
      rules.map fun r => if r.implicitWhitespace.isNone then { r with implicitWhitespace := some true } else r
      else rules) = rules.map (withDefault skips) := by
    intro skips _ rules
    split
    next h => exact List.map_congr_left fun r _ => by simp [withDefault, h]
    next h =>
      have hsame : withDefault (decide skips) = id := by
        funext r
        simp [withDefault, h]
      rw [hsame, List.map_id]
  rw [rulesOf, hattrs, childrenOf_grammarNode]
  simp only [productions_lines h, hdefault]

/-- The rules of a tree with the outline of lines. -/
theorem rulesOf_eq_of_outline {root : Node} {lines : List Line} (h : root.outline isToken = grammarNode as lines) :
    rulesOf style root = rulesOf style (grammarNode as lines) := by
  have hgrammar : isToken "Grammar" = false := by decide
  have hkind : isToken root.kind = false := by
    rw [← Node.outline_kind root, h]
    exact hgrammar
  rw [← rulesOf_outline hkind, h]

/-- The rules of a source that is read as lines. -/
theorem bind_rulesOf_eq {parser : Except (List Problem) Parser} {source : String} {lines : List Line}
    (h : ∃ root, readGrammarTree parser source = .ok root ∧ root.outline isToken = grammarNode as lines) :
    (readGrammarTree parser source).bind (rulesOf style) = rulesOf style (grammarNode as lines) := by
  obtain ⟨root, hroot, houtline⟩ := h
  rw [hroot, ← rulesOf_eq_of_outline houtline]
  rfl

end Lines

end Grammarian.Notation
