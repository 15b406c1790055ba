import Grammarian.Notation.Dialect
import Grammarian.Proofs.Grammar.Validity
import Grammarian.Proofs.Notation.Terms
import Grammarian.Proofs.Notation.Trees

/-!
# Classic BNF

Its rules are accepted, their table reads by steps, and lines are read as the rules they stand for, whatever
spaces stand between their parts.
-/

namespace Grammarian.Notation.Bnf

/-! ## Lines -/

/-- Terms, one or more, each with the number of spaces before it. -/
structure Alternative where
  before : Nat
  first : Term
  more : List (Nat × Term)

/-- A rule on a line of its own. Spaces stand before it, before the sign, before each bar and at the end. -/
structure Line where
  indent : Nat
  name : Name
  gap : Nat
  first : Alternative
  others : List (Nat × Alternative)
  behind : Nat

def Alternative.text (a : Alternative) : List Char := spaces a.before ++ (a.first.text ++ moreText a.more)

def othersText (others : List (Nat × Alternative)) : List Char :=
  others.flatMap fun o => spaces o.1 ++ '|' :: o.2.text

/-- A line without the spaces before it. -/
def Line.core (l : Line) : List Char :=
  '<' :: (l.name.text ++ '>' :: (spaces l.gap ++
    ([':', ':', '='] ++ (l.first.text ++ (othersText l.others ++ (spaces l.behind ++ ['\n']))))))

def Line.text (l : Line) : List Char := spaces l.indent ++ l.core

def Alternative.node (kind : String) (a : Alternative) : Node := .branch kind [listNode a.first a.more]

def Line.node (l : Line) : Node :=
  .branch "rule" (.token "rule-name" l.name.text :: l.first.node "firstExpression" ::
    l.others.map fun o => o.2.node "otherExpression")

/-! ## What lines stand for -/

/-- A name refers to its rule, a literal is its value. -/
def Term.symbol : Term → Symbol
  | .name n => .reference (.plain (String.ofList n.text))
  | .literal q => .ofText (String.ofList q.text)

def Alternative.symbols (a : Alternative) : List Symbol := (a.first :: a.more.map Prod.snd).map Term.symbol

def Line.rule (l : Line) : Rule :=
  Notation.rule (String.ofList l.name.text) ((l.first :: l.others.map Prod.snd).map Alternative.symbols)

/-! ## Reading lines -/

def lineSteps : List Step :=
  [.star space, .one (.literal ['<']), .one (.rule "rule-name"), .one (.literal ['>']), .star space,
    .one (.literal [':', ':', '=']), .one (.rule "firstExpression"), .star (.rule "otherExpression"), .star space,
    .plus (.rule "RULE_EOL"), .star space]

/-- A table with the rules of the notation. -/
structure Classic (t : Table) : Prop extends Verbal t where
  firstExpression : t.declares "firstExpression" false [[.star space, .one (.rule "list")]] = true
  otherExpression : t.declares "otherExpression" false
    [[.star space, .one (.literal ['|']), .star space, .one (.rule "list")]] = true
  line : t.declares "rule" false [lineSteps] = true
  grammar : t.declares "syntax" false [[.star (.rule "RULE_EOL"), .plus (.rule "rule")]] = true

theorem clear_spaces {p : Char → Bool} {n : Nat} {rest : List Char} (hp : p ' ' = false) (hrest : Clear p rest) :
    Clear p (spaces n ++ rest) := by
  refine Clear.append (fun c hc => ?_) hrest
  rw [List.eq_of_mem_replicate (List.mem_of_mem_head? hc)]
  exact hp

/-- What stands behind an alternative: spaces, and a bar or the end of the line. -/
theorem exists_spaces_others (others : List (Nat × Alternative)) (behind : Nat) (rest : List Char) :
    ∃ n back, othersText others ++ (spaces behind ++ '\n' :: rest) = spaces n ++ back ∧ Clear extendsList back := by
  cases others with
  | nil => exact ⟨behind, '\n' :: rest, rfl, clear_cons.2 (by decide)⟩
  | cons o others =>
    refine ⟨o.1, '|' :: o.2.text ++ (othersText others ++ (spaces behind ++ '\n' :: rest)), ?_,
      clear_cons.2 (by decide)⟩
    simp [othersText]

namespace Classic

variable {t : Table} {rest : List Char} {n : Nat}

/-- Spaces and the list behind them. -/
theorem readAll_list (hc : Classic t) (a : Alternative) (hrest : Clear extendsList rest) :
    Step.ReadAll t isToken [.star space, .one (.rule "list")] a.text (spaces n ++ rest) [listNode a.first a.more] := by
  have hspaces : (Step.star space).Skims t isToken (spaces a.before)
      (a.first.text ++ moreText a.more ++ (spaces n ++ rest)) [] := by
    refine skims_spaces a.before ?_
    rw [List.append_assoc]
    exact a.first.clear_text _
  exact hspaces.cons (Step.reads_one (Target.reads_rule (hc.reads_list a.first a.more hrest))).alone

/-- The first alternative of a line is read. -/
theorem reads_firstExpression (hc : Classic t) (a : Alternative) (hrest : Clear extendsList rest) :
    t.Reads isToken "firstExpression" a.text (spaces n ++ rest) [a.node "firstExpression"] :=
  Table.reads_branch hc.firstExpression (by decide) (by decide) (hc.readAll_list a hrest).first

/-- Every further alternative is read, with the bar in front of it. -/
theorem reads_otherExpression (hc : Classic t) (k : Nat) (a : Alternative) (hrest : Clear extendsList rest) :
    t.Reads isToken "otherExpression" (spaces k ++ '|' :: a.text) (spaces n ++ rest)
      [a.node "otherExpression"] := by
  have hbefore : (Step.star space).Skims t isToken (spaces k) ('|' :: a.text ++ (spaces n ++ rest)) [] :=
    skims_spaces k (clear_cons.2 (by decide))
  have hbar : (Step.one (.literal ['|'])).Reads t isToken ['|'] (a.text ++ (spaces n ++ rest)) [] :=
    Step.reads_one (Target.reads_literal (by simp) _)
  have hall := hbefore.cons (hbar.cons (hc.readAll_list a hrest).skimAll)
  exact Table.reads_branch hc.otherExpression (by decide) (by decide) hall.first

/-- At the end of a line no further alternative starts. -/
theorem otherExpression_none (hc : Classic t) (n : Nat) (rest : List Char) :
    (Target.rule "otherExpression").Answers t (spaces n ++ '\n' :: rest) none := by
  refine Table.answers_rule_none hc.otherExpression ?_
  rw [List.forall_mem_singleton]
  have hspaces : (Step.star space).Skims t isToken (spaces n) ('\n' :: rest) [] :=
    skims_spaces n (clear_cons.2 (by decide))
  exact Or.inl (hspaces.failsAt (.here (Step.fails_one (char_none (clear_cons.2 (by decide))))))

/-- The further alternatives of a line are read one after another. -/
theorem skims_others (hc : Classic t) (others : List (Nat × Alternative)) (behind : Nat) (rest : List Char) :
    (Step.star (.rule "otherExpression")).Skims t isToken (othersText others) (spaces behind ++ '\n' :: rest)
      (others.map fun o => o.2.node "otherExpression") := by
  by_cases hempty : others = []
  · subst hempty
    exact Step.skims_star_of_none (hc.otherExpression_none behind rest)
  · rw [List.map_eq_flatMap]
    refine (Step.reads_star (Target.readsRounds_flatMap hempty (by simp) (fun o back _ => ?_)
      (Or.inr (hc.otherExpression_none behind rest)))).skims
    obtain ⟨n, more, htext, hmore⟩ := exists_spaces_others back behind rest
    have hread := hc.reads_otherExpression (n := n) o.1 o.2 hmore
    rw [← htext] at hread
    exact Target.reads_rule hread

/-- The characters that the end of a line goes on with. -/
def extendsEnd (c : Char) : Bool := c = ' ' || (c = '\r' || c = '\n')

/-- The end of a line, with the spaces before the next one. -/
theorem readAll_end (hc : Classic t) (behind after : Nat) (hrest : Clear extendsEnd rest) :
    Step.ReadAll t isToken [.star space, .plus (.rule "RULE_EOL"), .star space]
      (spaces behind ++ '\n' :: spaces after) rest [] := by
  have hbehind : (Step.star space).Skims t isToken (spaces behind) ('\n' :: spaces after ++ rest) [] :=
    skims_spaces behind (clear_cons.2 (by decide))
  have hend : (Step.plus (.rule "RULE_EOL")).Reads t isToken ['\n'] (spaces after ++ rest) [] := by
    refine Step.reads_plus (hc.readsChar_lineEnd.readsRounds (by simp) (by simp) (clear_spaces (by decide) ?_))
    exact hrest.imp fun c h => by simpa [extendsEnd] using Or.inr (by simpa using h)
  have hafter : (Step.star space).Skims t isToken (spaces after) rest [] :=
    skims_spaces after (hrest.imp fun c h => by simp [extendsEnd, h])
  exact hbehind.cons (hend.cons hafter.alone)

/-- The alternatives and the end of a line. -/
theorem readAll_alternatives (hc : Classic t) (after : Nat) (l : Line) (hrest : Clear extendsEnd rest) :
    Step.ReadAll t isToken
      [.one (.rule "firstExpression"), .star (.rule "otherExpression"), .star space,
        .plus (.rule "RULE_EOL"), .star space]
      (l.first.text ++ (othersText l.others ++ (spaces l.behind ++ '\n' :: spaces after))) rest
      (l.first.node "firstExpression" :: l.others.map fun o => o.2.node "otherExpression") := by
  obtain ⟨n, back, htext, hback⟩ := exists_spaces_others l.others l.behind (spaces after ++ rest)
  have hfirst : (Step.one (.rule "firstExpression")).Reads t isToken l.first.text
      (othersText l.others ++ (spaces l.behind ++ '\n' :: spaces after) ++ rest) [l.first.node "firstExpression"] := by
    have hread := hc.reads_firstExpression (n := n) l.first hback
    rw [← htext] at hread
    rw [List.append_assoc, List.append_assoc]
    exact Step.reads_one (Target.reads_rule hread)
  have hothers : (Step.star (.rule "otherExpression")).Skims t isToken (othersText l.others)
      (spaces l.behind ++ '\n' :: spaces after ++ rest) (l.others.map fun o => o.2.node "otherExpression") := by
    rw [List.append_assoc]
    exact hc.skims_others l.others l.behind _
  have hall := hfirst.cons (hothers.cons (hc.readAll_end l.behind after hrest)).skimAll
  rwa [List.append_nil] at hall

/-- A line is read with the spaces before it and those before the next one. -/
theorem reads_line (hc : Classic t) (before after : Nat) (l : Line) (hrest : Clear extendsEnd rest) :
    t.Reads isToken "rule" (spaces before ++ (l.core ++ spaces after)) rest [l.node] := by
  have htext : spaces before ++ (l.core ++ spaces after) =
      spaces before ++ (['<'] ++ (l.name.text ++ (['>'] ++ (spaces l.gap ++ ([':', ':', '='] ++
        (l.first.text ++ (othersText l.others ++ (spaces l.behind ++ '\n' :: spaces after)))))))) := by
    simp [Line.core]
  have halternatives := hc.readAll_alternatives after l hrest
  generalize l.first.text ++ (othersText l.others ++ (spaces l.behind ++ '\n' :: spaces after)) = body
    at htext halternatives
  have hbefore : (Step.star space).Skims t isToken (spaces before)
      (['<'] ++ (l.name.text ++ (['>'] ++ (spaces l.gap ++ ([':', ':', '='] ++ body)))) ++ rest) [] :=
    skims_spaces before (clear_cons.2 (by decide))
  have hopen : (Step.one (.literal ['<'])).Reads t isToken ['<']
      (l.name.text ++ (['>'] ++ (spaces l.gap ++ ([':', ':', '='] ++ body))) ++ rest) [] :=
    Step.reads_one (Target.reads_literal (by simp) _)
  have hname : (Step.one (.rule "rule-name")).Reads t isToken l.name.text
      (['>'] ++ (spaces l.gap ++ ([':', ':', '='] ++ body)) ++ rest) [.token "rule-name" l.name.text] :=
    Step.reads_one (Target.reads_rule (hc.reads_name l.name (clear_cons.2 (by decide))))
  have hclose : (Step.one (.literal ['>'])).Reads t isToken ['>']
      (spaces l.gap ++ ([':', ':', '='] ++ body) ++ rest) [] :=
    Step.reads_one (Target.reads_literal (by simp) _)
  have hgap : (Step.star space).Skims t isToken (spaces l.gap) ([':', ':', '='] ++ body ++ rest) [] :=
    skims_spaces l.gap (clear_cons.2 (by decide))
  have hsign : (Step.one (.literal [':', ':', '='])).Reads t isToken [':', ':', '='] (body ++ rest) [] :=
    Step.reads_one (Target.reads_literal (by simp) _)
  have hdefined := hclose.cons (hgap.cons (hsign.cons halternatives.skimAll)).skimAll
  have hall := hbefore.cons (hopen.cons (hname.cons hdefined.skimAll).skimAll)
  rw [htext]
  exact Table.reads_branch hc.line (by decide) (by decide) hall.first

/-- Lines are read one after another. The induction is on the lines behind the first; each is read up to where
the next one begins behind its spaces. -/
theorem readsRounds_lines (hc : Classic t) (before : Nat) (l : Line) (ls : List Line) :
    (Target.rule "rule").ReadsRounds t isToken (spaces before ++ (l.core ++ ls.flatMap Line.text)) []
      ((l :: ls).map Line.node) := by
  induction ls generalizing before l with
  | nil =>
    have hread := hc.reads_line before 0 l (clear_nil _)
    exact Target.readsRounds_last (Target.reads_rule hread) (Or.inl rfl)
  | cons next ls ih =>
    have htext : spaces before ++ (l.core ++ (next :: ls).flatMap Line.text) =
        (spaces before ++ (l.core ++ spaces next.indent)) ++ (spaces 0 ++ (next.core ++ ls.flatMap Line.text)) := by
      simp [Line.text, spaces]
    have hread : t.Reads isToken "rule" (spaces before ++ (l.core ++ spaces next.indent))
        (spaces 0 ++ (next.core ++ ls.flatMap Line.text) ++ []) [l.node] :=
      hc.reads_line before next.indent l (clear_cons.2 (by decide))
    rw [htext]
    exact Target.readsRounds_more (Target.reads_rule hread) (by simp [Line.core]) (by simp [Line.core]) (ih 0 next)

/-- Lines are read one after another, up to the end of the text. -/
theorem readFirst_grammar (hc : Classic t) (l : Line) (ls : List Line) :
    Step.ReadFirst t isToken [[.star (.rule "RULE_EOL"), .plus (.rule "rule")]] ((l :: ls).flatMap Line.text) []
      ((l :: ls).map Line.node) := by
  have hends : (Step.star (.rule "RULE_EOL")).Skims t isToken [] ((l :: ls).flatMap Line.text ++ []) [] := by
    refine Step.skims_star_of_none (hc.readsChar_lineEnd.missing ?_)
    rw [List.flatMap_cons, Line.text, List.append_assoc, List.append_assoc]
    exact clear_spaces (by decide) (clear_cons.2 (by decide))
  have hlines := hc.readsRounds_lines l.indent l ls
  rw [← List.append_assoc] at hlines
  exact (hends.cons (Step.reads_plus hlines).alone).first

end Classic

/-! ## What trees stand for -/

/-- A term compiles from its bare tree as from its tree. -/
theorem symbolOfTerm_outline {n : Node} (hn : n.kind = "term") : symbolOfTerm (n.outline isToken) = symbolOfTerm n := by
  have htoken : isToken n.kind = false := by
    rw [hn]
    decide
  have hname := Node.firstChildOf?_text_outline htoken (show isToken "rule-name" = true by decide)
  have hliteral := Node.firstChildOf?_text_outline htoken (show isToken "literal" = true by decide)
  rw [symbolOfTerm, symbolOfTerm, hname]
  cases hfound : n.firstChildOf? "literal" with
  | none =>
    rw [hfound, Option.map_none, Option.map_eq_none_iff] at hliteral
    rw [hliteral]
  | some child =>
    rw [hfound, Option.map_some, Option.map_eq_some_iff] at hliteral
    obtain ⟨child', hchild', htext⟩ := hliteral
    rw [hchild']
    simp only [htext]

mutual

theorem termsOf_outline : (n : Node) → isToken n.kind = false → termsOf (n.outline isToken) = termsOf n
  | ⟨kind, text, start, stop, children⟩, hn => by
    have hn : ¬ isToken kind = true := Bool.eq_false_iff.1 hn
    rw [Node.outline, if_neg hn, Node.outlineAll_eq_map, termsOf, termsOf, termsAmong_outline children]

theorem termsAmong_outline : (ns : List Node) → termsAmong (ns.map (Node.outline isToken)) = termsAmong ns
  | [] => rfl
  | n :: ns => by
    rw [List.map_cons, termsAmong, termsAmong, termsAmong_outline ns, Node.outline_kind]
    split
    next hterm => rw [symbolOfTerm_outline hterm]
    next =>
      split
      next hlist =>
        rw [termsOf_outline n]
        rw [hlist]
        decide
      next => rfl

end

/-- A rule compiles from its bare tree as from its tree. -/
theorem bnfRule_outline {n : Node} (hn : isToken n.kind = false) : bnfRule (n.outline isToken) = bnfRule n := by
  rw [bnfRule, bnfRule, Node.firstChildOf?_text_outline hn (show isToken "rule-name" = true by decide),
    Node.outline_children hn,
    Node.filter_outline n.children (fun kind => kind = "firstExpression" || kind = "otherExpression"), List.map_map]
  congr 1
  refine List.map_congr_left fun c hc => termsOf_outline c ?_
  have hkind := List.of_mem_filter hc
  simp only [Bool.or_eq_true, decide_eq_true_eq] at hkind
  rcases hkind with hkind | hkind
  · rw [hkind]
    decide
  · rw [hkind]
    decide

/-- The rules of a tree are those of its outline. -/
theorem bnfRulesOf_outline {root : Node} (hroot : isToken root.kind = false) :
    bnfRulesOf (root.outline isToken) = bnfRulesOf root := by
  have hrules : ((root.childrenOf "rule").map (Node.outline isToken)).map bnfRule =
      (root.childrenOf "rule").map bnfRule := by
    rw [List.map_map]
    refine List.map_congr_left fun n hn => bnfRule_outline ?_
    have hkind : n.kind = "rule" := by simpa using List.of_mem_filter hn
    rw [hkind]
    decide
  rw [bnfRulesOf, bnfRulesOf, Node.childrenOf_outline hroot, hrules]

/-! ## What lines stand for -/

theorem Name.bare (n : Name) : Bare n.text := by
  have hlast : ∀ c ∈ n.text, c ∉ tailMarks := by
    intro c hc hmark
    have hmarks : ∀ d ∈ tailMarks, (Text.isAsciiLetter d || isNameChar d) = false := by decide
    have hnone := hmarks c hmark
    rw [Bool.or_eq_false_iff] at hnone
    rcases List.mem_cons.1 hc with rfl | hc
    · rw [n.first_letter] at hnone
      exact absurd hnone.1 (by decide)
    · rw [n.more_nameChar c hc] at hnone
      exact absurd hnone.2 (by decide)
  refine ⟨⟨n.first, n.more, rfl, fun hmem => ?_⟩, n.text.dropLast, n.text.getLast (List.cons_ne_nil _ _),
    (List.dropLast_append_getLast _).symm, hlast _ (List.getLast_mem _)⟩
  have hmarks : ∀ d ∈ ['&', '!', '@'], Text.isAsciiLetter d = false := by decide
  have hletter := n.first_letter
  rw [hmarks _ hmem] at hletter
  cases hletter

theorem Name.isLiteral_plain (n : Name) : (Reference.plain (String.ofList n.text)).isLiteral = false := by
  have hquote : ∀ q ∈ ['"', '\''], n.first ≠ q := by
    rintro q hq heq
    have hall : ∀ q ∈ ['"', '\''], Text.isAsciiLetter q = false := by decide
    have hletter := n.first_letter
    rw [heq, hall q hq] at hletter
    cases hletter
  simp [Reference.isLiteral, Reference.plain, Name.text, hquote '"' (by simp), hquote '\'' (by simp)]

/-- A name is read as the reference to its rule. -/
theorem ofText_name (n : Name) :
    Symbol.ofText (String.ofList n.text) = .reference (.plain (String.ofList n.text)) := by
  have htext : leadMark [] ++ String.ofList n.text ++ String.ofList [] = String.ofList n.text := by
    simp [leadMark]
  have hmarked := marked_name (Or.inl rfl) (Or.inl rfl) n.bare n.isLiteral_plain
  rw [marked, htext] at hmarked
  exact hmarked

theorem symbolOfTerm_node (term : Term) : symbolOfTerm term.node = term.symbol := by
  cases term with
  | name n => simp [symbolOfTerm, Term.node, Term.symbol, Node.firstChildOf?, Node.branch, Node.token, ofText_name]
  | literal q => simp [symbolOfTerm, Term.node, Term.symbol, Node.firstChildOf?, Node.branch, Node.token]

theorem Term.kind_node (term : Term) : term.node.kind = "term" := by
  cases term with
  | name n => rfl
  | literal q => rfl

theorem kind_listNode (first : Term) (more : List (Nat × Term)) : (listNode first more).kind = "list" := by
  cases more with
  | nil => rfl
  | cons p more => rfl

/-- The terms of nested lists, in order. -/
theorem termsOf_listNode (first : Term) (more : List (Nat × Term)) :
    termsOf (listNode first more) = (first :: more.map Prod.snd).map Term.symbol := by
  induction more generalizing first with
  | nil => simp [listNode, Node.branch, termsOf, termsAmong, first.kind_node, symbolOfTerm_node]
  | cons p more ih =>
    simp [listNode, Node.branch, termsOf, termsAmong, first.kind_node, kind_listNode, symbolOfTerm_node, ih]

/-- An alternative's node compiles to its symbols. -/
theorem termsOf_alternative (kind : String) (a : Alternative) : termsOf (a.node kind) = a.symbols := by
  simp [Alternative.node, Node.branch, termsOf, termsAmong, kind_listNode, termsOf_listNode, Alternative.symbols]

/-- A line's node compiles to its rule. -/
theorem bnfRule_line (l : Line) : bnfRule l.node = l.rule := by
  have hkept : (l.others.map fun o => o.2.node "otherExpression").filter
      (fun c => c.kind = "firstExpression" || c.kind = "otherExpression") =
        l.others.map fun o => o.2.node "otherExpression" := by
    rw [List.filter_eq_self]
    intro c hc
    obtain ⟨o, -, rfl⟩ := List.mem_map.1 hc
    rfl
  have hname : (l.node.firstChildOf? "rule-name").map (·.text) = some (String.ofList l.name.text) := rfl
  have hchildren : l.node.children = .token "rule-name" l.name.text :: l.first.node "firstExpression" ::
      l.others.map fun o => o.2.node "otherExpression" := rfl
  rw [bnfRule, hname, hchildren, List.filter_cons_of_neg (by simp [Node.token]),
    List.filter_cons_of_pos (by rfl), hkept, List.map_cons, List.map_map, termsOf_alternative]
  simp [Line.rule, Function.comp_def, termsOf_alternative]

/-- Lines compile to their rules, and to the rule for line ends unless one of them declares it. -/
theorem bnfRulesOf_lines (ls : List Line) :
    bnfRulesOf (.branch "syntax" (ls.map Line.node)) =
      ls.map Line.rule ++ if ∃ l ∈ ls, l.rule.name = "EOL" then [] else [endOfLine] := by
  have hrules : ((Node.branch "syntax" (ls.map Line.node)).childrenOf "rule").map bnfRule = ls.map Line.rule := by
    have hkept : (ls.map Line.node).filter (·.kind = "rule") = ls.map Line.node := by
      rw [List.filter_eq_self]
      intro c hc
      obtain ⟨l, -, rfl⟩ := List.mem_map.1 hc
      rfl
    rw [Node.childrenOf, Node.branch, hkept, List.map_map]
    exact List.map_congr_left fun l _ => bnfRule_line l
  have hany : ((ls.map Line.rule).any (·.name = "EOL")) = true ↔ ∃ l ∈ ls, l.rule.name = "EOL" := by
    simp [List.any_eq_true]
  rw [bnfRulesOf, hrules]
  by_cases heol : ∃ l ∈ ls, l.rule.name = "EOL"
  · rw [if_pos heol, List.append_nil]
    exact if_pos (hany.2 heol)
  · rw [if_neg heol]
    exact if_neg (mt hany.1 heol)

/-! ## The table -/

/-- The table of the rules of the notation. -/
def bnfTable : Table := .ofRules bnfRules "WS"

/-- The rules that begin with another one, each before those it begins with. -/
def bnfOrder : List String :=
  ["syntax", "rule", "firstExpression", "otherExpression", "list", "term", "literal", "RULE_CHARACTER1",
    "RULE_CHARACTER2", "RULE_CHARACTER", "rule-name", "RULE_CHAR"]

theorem wellOrdered_bnfRules : Table.WellOrdered bnfOrder (bnfRules.map (Rule.settled "WS")) "WS" := by
  decide +kernel

theorem bnfParser_eq : bnfParser = .ok ⟨bnfTable, {}⟩ :=
  Parser.build_eq_ok_iff.2 ⟨wellOrdered_bnfRules.build, rfl⟩

/-- The table of the BNF parser has the entries that the readings rest on. -/
theorem classic_bnfTable : Classic bnfTable where
  letter := by decide +kernel
  digit := by decide +kernel
  symbol := by decide +kernel
  character := by decide +kernel
  character1 := by decide +kernel
  character2 := by decide +kernel
  nameChar := by decide +kernel
  lineEnd := by decide +kernel
  name := by decide +kernel
  literal := by decide +kernel
  term := by decide +kernel
  list := by decide +kernel
  firstExpression := by decide +kernel
  otherExpression := by decide +kernel
  line := by decide +kernel
  grammar := by decide +kernel

theorem start_bnfTable : bnfTable.start?.map (·.name) = some "syntax" := by decide +kernel

/-- **Lines are read as the rules they stand for**, in their order, and one for line ends if none has its name. -/
theorem rulesOf_lines (l : Line) (ls : List Line) :
    Dialect.bnf.rulesOf (String.ofList ((l :: ls).flatMap Line.text)) =
      .ok ((l :: ls).map Line.rule ++ if ∃ x ∈ l :: ls, x.rule.name = "EOL" then [] else [endOfLine]) := by
  obtain ⟨root, hroot, houtline⟩ := readGrammarTree_of_readFirst bnfParser_eq start_bnfTable
    classic_bnfTable.grammar (by decide) (classic_bnfTable.readFirst_grammar l ls)
  have hkind : isToken root.kind = false := by
    rw [← Node.outline_kind, houtline]
    rfl
  have hrules := bnfRulesOf_outline hkind
  rw [houtline, bnfRulesOf_lines] at hrules
  rw [Dialect.rulesOf, hroot, Except.map, ← hrules]

/-- A line as it is written. -/
example : Line.text ⟨0, ⟨'a', ['-'], by decide, by decide⟩, 1,
    ⟨1, .literal ⟨'"', ['\'', '|'], by decide, by decide⟩, [(0, .name ⟨'b', [], by decide, by decide⟩)]⟩,
    [(1, ⟨0, .literal ⟨'\'', [], by decide, by decide⟩, []⟩)], 2⟩ =
    "<a-> ::= \"'|\"<b> |''  \n".toList := by decide

end Grammarian.Notation.Bnf
