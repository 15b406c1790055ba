import Grammarian.Proofs.Notation.Phrases

/-!
# Reading lines

Both notations define a name by what stands behind a sign, and end a line in the same way. The attributed
notation reads a line as a production, and lines as a grammar.
-/

namespace Grammarian.Notation

variable {t : Table} {text rest input : List Char}

/-! ## Lines of either notation -/

/-- The characters that a line goes on with. -/
def extendsLine (c : Char) : Bool := opensSpacing c || c = '|'

theorem clear_lineEnd (hrest : Clear extendsLine rest) : Clear (fun c => c = '\n' || c = '\r') rest := by
  refine hrest.imp fun c hc => ?_
  simp only [extendsLine, opensSpacing, isSpacing, Bool.or_eq_true] at hc ⊢
  tauto

/-- A letter or nothing stands where lines begin. -/
theorem clear_lines {lines : List Line} (h : ∀ l ∈ lines, IsName l.name) :
    Clear (fun c => extendsLine c || c = '\x7b') (lines.flatMap Line.text) := by
  cases lines with
  | nil => exact clear_nil _
  | cons l lines =>
    obtain ⟨c, cs, hname, hc, -⟩ := h l List.mem_cons_self
    rw [List.flatMap_cons, Line.text, hname]
    refine clear_cons.2 ?_
    have hopens : opensSpacing c = false := not_opensSpacing (by simp [opensItem, opensPrimary, hc])
    have hother : ∀ d ∈ ['|', '\x7b'], decide (c = d) = false := by
      intro d hd
      refine decide_eq_false fun heq => ?_
      subst heq
      have hnone : ∀ d ∈ ['|', '\x7b'], Text.isAsciiLetter d = false := by decide
      rw [hnone c hd] at hc
      cases hc
    simp only [extendsLine, hopens, hother '|' (by simp), hother '\x7b' (by simp), Bool.or_false]

section Definitions

variable {style : Style} {steps : List Step} {body name : List Char} {ns : List Node}

/-- A name, the sign behind it, and what the name is defined as. -/
theorem Phrasal.readAll_definition (hp : Phrasal style t) (hname : IsName name)
    (hbody : Clear opensBlank (body ++ rest)) (h : Step.ReadAll t isToken steps body rest ns) :
    Step.ReadAll t isToken
      (.one (.rule "NCName") :: .star (.rule "RULE_S") :: .one (.literal [':', ':', '=']) ::
        .star (.rule "RULE_WHITESPACE") :: steps)
      (name ++ ([' ', ':', ':', '=', ' '] ++ body)) rest (.token "NCName" name :: ns) := by
  have hfirst : (Step.one (.rule "NCName")).Reads t isToken name
      ([' '] ++ ([':', ':', '='] ++ ([' '] ++ body)) ++ rest) [.token "NCName" name] :=
    Step.reads_one (Target.reads_rule (hp.reads_name hname (clear_cons.2 (by decide))))
  have hbefore : (Step.star (.rule "RULE_S")).Skims t isToken [' '] ([':', ':', '='] ++ ([' '] ++ body) ++ rest) [] :=
    hp.skims_spacing (by decide) (clear_cons.2 (by decide))
  have hsign : (Step.one (.literal [':', ':', '='])).Reads t isToken [':', ':', '='] ([' '] ++ body ++ rest) [] :=
    Step.reads_one (Target.reads_literal (by simp) _)
  have hafter : (Step.star (.rule "RULE_WHITESPACE")).Skims t isToken [' '] (body ++ rest) [] :=
    hp.skims_blanks (by decide) hbody
  exact hfirst.cons (hbefore.cons (hsign.cons (hafter.cons h).skimAll)).skimAll

/-- The end of a line, when a line or nothing stands behind it. -/
theorem Lexical.readAll_lineEnd (hl : Lexical t) (hrest : Clear extendsLine rest) :
    Step.ReadAll t isToken [.one (.rule "%EndOfProduction"), .star (.rule "RULE_S")] ['\n'] rest [] := by
  have hend : (Step.one (.rule "%EndOfProduction")).Reads t isToken ['\n'] ([] ++ rest) [] :=
    Step.reads_one (Target.reads_rule (hl.reads_endOfProduction (clear_lineEnd hrest)))
  have hlast : (Step.star (.rule "RULE_S")).Skims t isToken [] rest [] :=
    hl.skims_spacing nofun (hrest.imp fun c hc => by simp [extendsLine, hc])
  exact hend.cons hlast.alone

/-- Lines that are read one by one are read one after another. -/
theorem Lexical.skims_lines (hl : Lexical t)
    (hline : t.declares "%Atomic" true [[.one (.rule "Production"), .star (.rule "RULE_S")]] = true)
    (hnone : (Target.rule "Production").Answers t [] none) {lines : List Line} (h : ∀ l ∈ lines, IsName l.name)
    (hread : ∀ l ∈ lines, ∀ rest, Clear extendsLine rest → t.Reads isToken "Production" l.text rest [l.node]) :
    (Step.star (.rule "%Atomic")).Skims t isToken (lines.flatMap Line.text) [] (lines.map Line.node) := by
  by_cases hempty : lines = []
  · subst hempty
    refine Step.skims_star_of_none (Table.answers_rule_none hline ?_)
    simp only [List.forall_mem_singleton]
    exact Step.rejected_of_none hnone
  · have hnodes : lines.map Line.node = lines.flatMap fun l => [l.node] := List.map_eq_flatMap
    rw [hnodes]
    refine (Step.reads_star (Target.readsRounds_flatMap hempty (fun l hl => ?_) (fun l back hback => ?_)
      (Or.inl rfl))).skims
    · obtain ⟨c, cs, hname, -⟩ := h l hl
      simp [Line.text, hname]
    · have hclear := clear_lines fun x hx => h x (hback.subset (List.mem_cons_of_mem l hx))
      rw [List.append_nil]
      have hfirst : (Step.one (.rule "Production")).Reads t isToken l.text ([] ++ back.flatMap Line.text) [l.node] :=
        Step.reads_one (Target.reads_rule
          (hread l (hback.subset List.mem_cons_self) _ (hclear.imp fun c hc => by simp [hc])))
      have hspace : (Step.star (.rule "RULE_S")).Skims t isToken [] (back.flatMap Line.text) [] :=
        hl.skims_spacing nofun (hclear.imp fun c hc => by simp [extendsLine, hc])
      have hall := hfirst.cons hspace.alone
      rw [List.append_nil, List.append_nil] at hall
      exact Target.reads_rule (Table.reads_fragment hline hall.first)

end Definitions

/-! ## The attributed notation -/

/-- Lines with the attributes of all of them before. -/
def grammarSteps : List (List Step) :=
  [[.star (.rule "RULE_S"), .optional (.rule "Attributes"), .star (.rule "RULE_S"), .star (.rule "%Atomic"),
    .one .endOfInput]]

/-- A table with the rules of the attributed notation. -/
structure Attributed (t : Table) : Prop extends Phrasal .attributed t where
  grammar : t.declares "Grammar" false grammarSteps = true
  line : t.declares "%Atomic" true [[.one (.rule "Production"), .star (.rule "RULE_S")]] = true
  production : t.declares "Production" false
    [[.one (.rule "NCName"), .star (.rule "RULE_S"), .one (.literal [':', ':', '=']),
      .star (.rule "RULE_WHITESPACE"), .one (.rule "%Choice"), .star (.rule "RULE_WHITESPACE"),
      .optional (.rule "Attributes"), .one (.rule "%EndOfProduction"), .star (.rule "RULE_S")]] = true
  attributes : t.declares "Attributes" false
    [[.one (.literal ['\x7b']), .one (.rule "Attribute"), .star (.rule "%Attributes"), .star (.rule "RULE_S"),
      .one (.literal ['\x7d'])]] = true
  nextAttribute : t.declares "%Attributes" true
    [[.star (.rule "RULE_S"), .one (.literal [',']), .one (.rule "Attribute")]] = true
  oneAttribute : t.declares "Attribute" false
    [[.star (.rule "RULE_S"), .one (.rule "NCName"), .star (.rule "RULE_WHITESPACE"), .one (.literal ['=']),
      .star (.rule "RULE_WHITESPACE"), .one (.rule "AttributeValue")]] = true
  value : t.declares "AttributeValue" false
    [[.one (.rule "NCName")], [.one (.pattern (.ofSource "[1-9][0-9]*"))]] = true

namespace Attributed

/-! ## Attributes -/

theorem number_regex : (Pattern.ofSource "[1-9][0-9]*").regex =
    .word (.union .none (.range '1' '9')) (.union .none (.range '0' '9')) :=
  Pattern.regex_ofSource (by decide +kernel)

theorem reads_number (ha : Attributed t) (htext : IsNumber text) (hrest : Clear isNameChar rest) :
    t.Reads isToken "AttributeValue" text rest [.token "AttributeValue" text] := by
  obtain ⟨c, cs, rfl, ⟨hlow, hhigh⟩, hcs⟩ := htext
  have hmatch : (Pattern.ofSource "[1-9][0-9]*").match? (c :: cs ++ rest) = some rest := by
    refine Pattern.match?_word number_regex ?_ ?_ ?_
    · simp [Pattern.CharSet.contains, hlow, hhigh]
    · intro d hd
      simpa [Pattern.CharSet.contains, Text.isAsciiDigit] using hcs d hd
    · intro d hd
      have hclear := hrest d hd
      simp only [isNameChar, Text.isAsciiAlnum, Bool.or_eq_false_iff] at hclear
      simpa [Pattern.CharSet.contains, Text.isAsciiDigit] using hclear.1.2
  have hname : (Target.rule "NCName").Answers t (c :: cs ++ rest) none := by
    refine ha.name_none (clear_cons.2 ?_)
    simp only [Text.isAsciiLetter, Text.isAsciiUpper, Text.isAsciiLower, Char.le_def, Bool.or_eq_false_iff,
      Bool.and_eq_false_iff, decide_eq_false_iff_not] at hlow hhigh ⊢
    grind
  have hread : (Step.one (.pattern (.ofSource "[1-9][0-9]*"))).Reads t isToken (c :: cs) rest [] :=
    Step.reads_one (Target.reads_pattern hmatch)
  exact Table.reads_token ha.value (by decide) (by decide) (.next (Step.rejected_of_none hname) hread.alone.first)

theorem reads_value (ha : Attributed t) (htext : IsName text ∨ IsNumber text)
    (hrest : Clear isNameChar rest) :
    t.Reads isToken "AttributeValue" text rest [.token "AttributeValue" text] := by
  rcases htext with htext | htext
  · have hread := (Step.reads_one (Target.reads_rule (ha.reads_name htext hrest))).alone
    exact Table.reads_token ha.value (by decide) (by decide) hread.first
  · exact ha.reads_number htext hrest

theorem clear_value (htext : IsName text ∨ IsNumber text) (rest : List Char) :
    Clear opensBlank (text ++ rest) := by
  rcases htext with htext | ⟨c, cs, rfl, ⟨hlow, hhigh⟩, -⟩
  · exact clear_opensBlank_of_opensSpacing (htext.clear_append rest)
  · refine clear_cons.2 ?_
    cases hc : opensBlank c with
    | false => rfl
    | true =>
      simp only [opensBlank, isBlank, Bool.or_eq_true, decide_eq_true_eq] at hc
      rcases hc with (rfl | rfl) | rfl
      all_goals exact absurd hlow (by decide)

/-- An attribute is read with the blank before it. -/
theorem reads_attribute (ha : Attributed t) {a : List Char × List Char} (h : LegibleAttribute a)
    (hrest : Clear isNameChar rest) :
    t.Reads isToken "Attribute" (' ' :: attributeText a) rest [attributeNode a] := by
  obtain ⟨hname, hvalue⟩ := h
  have hspace : (Step.star (.rule "RULE_S")).Skims t isToken [' ']
      (a.1 ++ ([] ++ (['='] ++ ([] ++ a.2))) ++ rest) [] := by
    refine ha.skims_spacing (by decide) ?_
    rw [List.append_assoc]
    exact hname.clear_append _
  have hfirst : (Step.one (.rule "NCName")).Reads t isToken a.1 ([] ++ (['='] ++ ([] ++ a.2)) ++ rest)
      [.token "NCName" a.1] :=
    Step.reads_one (Target.reads_rule (ha.reads_name hname (clear_cons.2 (by decide))))
  have htight : (Step.star (.rule "RULE_WHITESPACE")).Skims t isToken [] (['='] ++ ([] ++ a.2) ++ rest) [] :=
    ha.skims_blanks nofun (clear_cons.2 (by decide))
  have hsign : (Step.one (.literal ['='])).Reads t isToken ['='] ([] ++ a.2 ++ rest) [] :=
    Step.reads_one (Target.reads_literal (by simp) _)
  have hclose : (Step.star (.rule "RULE_WHITESPACE")).Skims t isToken [] (a.2 ++ rest) [] :=
    ha.skims_blanks nofun (clear_value hvalue rest)
  have hlast := (Step.reads_one (Target.reads_rule (ha.reads_value hvalue hrest))).alone
  have hall := hspace.cons (hfirst.cons (htight.cons (hsign.cons (hclose.cons hlast).skimAll)).skimAll)
  exact Table.reads_branch ha.oneAttribute (by decide) (by decide) hall.first

theorem reads_nextAttribute (ha : Attributed t) {a : List Char × List Char} (h : LegibleAttribute a)
    (hrest : Clear isNameChar rest) :
    t.Reads isToken "%Attributes" (',' :: ' ' :: attributeText a) rest [attributeNode a] := by
  have hspace : (Step.star (.rule "RULE_S")).Skims t isToken [] ([','] ++ (' ' :: attributeText a) ++ rest) [] :=
    ha.skims_spacing nofun (clear_cons.2 (by decide))
  have hcomma : (Step.one (.literal [','])).Reads t isToken [','] (' ' :: attributeText a ++ rest) [] :=
    Step.reads_one (Target.reads_literal (by simp) _)
  have hlast := (Step.reads_one (Target.reads_rule (ha.reads_attribute h hrest))).alone
  have hall := hspace.cons (hcomma.cons hlast.skimAll)
  exact Table.reads_fragment ha.nextAttribute hall.first

theorem nextAttribute_none (ha : Attributed t) (rest : List Char) :
    (Target.rule "%Attributes").Answers t (' ' :: '\x7d' :: rest) none := by
  have hspace : (Step.star (.rule "RULE_S")).Skims t isToken [' '] ('\x7d' :: rest) [] :=
    ha.skims_spacing (by decide) (clear_cons.2 (by decide))
  refine Table.answers_rule_none ha.nextAttribute ?_
  simp only [List.forall_mem_singleton]
  refine Or.inl (hspace.failsAt (.here (Step.fails_one (Target.answers_literal_none fun d hd => ?_))))
  cases hd
  decide

theorem attributes_none (ha : Attributed t) (hinput : Clear (· = '\x7b') input) :
    (Target.rule "Attributes").Answers t input none := by
  refine Table.answers_rule_none ha.attributes ?_
  simp only [List.forall_mem_singleton]
  exact Step.rejected_of_none (Target.answers_literal_none fun d hd => of_decide_eq_false (hinput d hd))

/-- The braces with what stands between them. -/
theorem reads_attributes (ha : Attributed t) {first : List Char × List Char}
    {more : List (List Char × List Char)} (h : ∀ a ∈ first :: more, LegibleAttribute a) (rest : List Char) :
    t.Reads isToken "Attributes"
      (['\x7b', ' '] ++ ([',', ' '].intercalate ((first :: more).map attributeText) ++ [' ', '\x7d'])) rest
      [.branch "Attributes" ((first :: more).map attributeNode)] := by
  obtain ⟨hfirst, hmore⟩ := List.forall_mem_cons.1 h
  have htext : ['\x7b', ' '] ++ ([',', ' '].intercalate ((first :: more).map attributeText) ++ [' ', '\x7d']) =
      ['\x7b'] ++ (' ' :: attributeText first ++
        ((more.flatMap fun a => ',' :: ' ' :: attributeText a) ++ ([' '] ++ ['\x7d']))) := by
    rw [List.map_cons, intercalate_cons_eq_append, List.flatMap_map]
    simp
  have hclear : ∀ back : List (List Char × List Char), Clear isNameChar
      ((back.flatMap fun a => ',' :: ' ' :: attributeText a) ++ ([' '] ++ ['\x7d'] ++ rest)) := by
    intro back
    cases back with
    | nil => exact clear_cons.2 (by decide)
    | cons a back => exact clear_cons.2 (by decide)
  have hopen : (Step.one (.literal ['\x7b'])).Reads t isToken ['\x7b'] (' ' :: attributeText first ++
      ((more.flatMap fun a => ',' :: ' ' :: attributeText a) ++ ([' '] ++ ['\x7d'])) ++ rest) [] :=
    Step.reads_one (Target.reads_literal (by simp) _)
  have hspace : (Step.star (.rule "RULE_S")).Skims t isToken [' '] (['\x7d'] ++ rest) [] :=
    ha.skims_spacing (by decide) (clear_cons.2 (by decide))
  have hclose : (Step.one (.literal ['\x7d'])).Reads t isToken ['\x7d'] rest [] :=
    Step.reads_one (Target.reads_literal (by simp) rest)
  have hnone : (Target.rule "%Attributes").Answers t ([' '] ++ ['\x7d'] ++ rest) none :=
    ha.nextAttribute_none rest
  have hothers : (Step.star (.rule "%Attributes")).Skims t isToken
      (more.flatMap fun a => ',' :: ' ' :: attributeText a) ([' '] ++ ['\x7d'] ++ rest)
      (more.flatMap fun a => [attributeNode a]) := by
    by_cases hempty : more = []
    · subst hempty
      exact Step.skims_star_of_none hnone
    · refine (Step.reads_star (Target.readsRounds_flatMap hempty (by simp) ?_ (Or.inr hnone))).skims
      intro a back hback
      exact Target.reads_rule (ha.reads_nextAttribute (hmore a (hback.subset List.mem_cons_self)) (hclear back))
  have hitself : (Step.one (.rule "Attribute")).Reads t isToken (' ' :: attributeText first)
      ((more.flatMap fun a => ',' :: ' ' :: attributeText a) ++ ([' '] ++ ['\x7d']) ++ rest)
      [attributeNode first] := by
    refine Step.reads_one (Target.reads_rule (ha.reads_attribute hfirst ?_))
    rw [List.append_assoc]
    exact hclear more
  have hall := hopen.cons (hitself.cons (hothers.cons (hspace.cons hclose.alone)).skimAll).skimAll
  have hread := Table.reads_branch ha.attributes (by decide) (by decide) hall.first
  have hnodes : (more.flatMap fun a => [attributeNode a]) = more.map attributeNode := List.map_eq_flatMap.symm
  rw [htext]
  simpa [hnodes] using hread

/-! ## Productions -/

/-- The alternatives of a line, with the blank before the braces or none. -/
theorem reads_lineChoice (ha : Attributed t) {l : Line} (hl : l.Legible) (hrest : Clear extendsLine rest) :
    ∃ taken left braces, attributesText l.attributes = taken ++ (left ++ braces) ∧
      t.Reads isToken "%Choice" (Item.choiceText l.choice ++ taken) (left ++ (braces ++ ('\n' :: rest)))
        (l.choice.map Item.sequenceNode) ∧
      (Step.star (.rule "RULE_WHITESPACE")).Skims t isToken left (braces ++ ('\n' :: rest)) [] ∧
      (Step.optional (.rule "Attributes")).Skims t isToken braces ('\n' :: rest)
        (attributesNodes l.attributes) := by
  have hall := ha.readsAll_of_legible hl.choice hl.items
  cases hattributes : l.attributes with
  | nil =>
    have hspace : (Step.star (.rule "RULE_S")).Skims t isToken ['\n'] rest [] :=
      ha.skims_spacing (by decide) (hrest.imp fun c hc => by simp [extendsLine, hc])
    have hnone : (Target.rule "%_Choice_1").Answers t (['\n'] ++ rest) none :=
      ha.further_none hspace (hrest.imp fun c hc => by simp [extendsLine, of_decide_eq_true hc])
    have hend : ∀ left, left <:+ [] → (Target.rule "%_Choice_1").Answers t (left ++ ('\n' :: rest)) none := by
      intro left hleft
      rw [List.suffix_nil.1 hleft]
      exact hnone
    have hnewline : Clear Phrasal.extendsSequence ('\n' :: rest) := clear_cons.2 (by decide)
    obtain ⟨taken, left, hempty, hread⟩ := ha.reads_choice hall (show ∀ c ∈ [], _ from nofun) hnewline hend
    obtain ⟨rfl, rfl⟩ := List.append_eq_nil_iff.1 hempty.symm
    refine ⟨[], [], [], rfl, hread, ?_, ?_⟩
    · exact ha.skims_blanks nofun (clear_cons.2 (by decide))
    · exact Step.skims_optional_of_none (ha.attributes_none (clear_cons.2 (by decide)))
  | cons first more =>
    have hlegible := hl.attributes
    rw [hattributes] at hlegible
    let braces := ['\x7b', ' '] ++ ([',', ' '].intercalate ((first :: more).map attributeText) ++ [' ', '\x7d'])
    have hend : ∀ left, left <:+ [' '] →
        (Target.rule "%_Choice_1").Answers t (left ++ (braces ++ ('\n' :: rest))) none := by
      intro left hleft
      refine ha.further_none (ha.skims_gap (fun c hc => ?_) ?_) (clear_cons.2 (by decide))
      · rw [List.mem_singleton.1 (hleft.subset hc)]
        decide
      · exact clear_cons.2 (by decide)
    have hbrace : Clear Phrasal.extendsSequence (braces ++ ('\n' :: rest)) := clear_cons.2 (by decide)
    obtain ⟨taken, left, hblank, hread⟩ := ha.reads_choice hall (show ∀ c ∈ [' '], _ by decide) hbrace hend
    refine ⟨taken, left, braces, ?_, hread, ?_, ?_⟩
    · rw [← List.append_assoc, ← hblank, attributesText, if_neg (List.cons_ne_nil _ _)]
      rfl
    · exact ha.skims_blanks (Phrasal.isBlank_of_cut hblank) (clear_cons.2 (by decide))
    · rw [attributesNodes, if_neg (List.cons_ne_nil _ _)]
      exact (Step.reads_optional (Target.reads_rule (ha.reads_attributes hlegible _))).skims

/-- A line, when a line or nothing stands behind it. -/
theorem reads_production (ha : Attributed t) {l : Line} (hl : l.Legible) (hrest : Clear extendsLine rest) :
    t.Reads isToken "Production" l.text rest [l.node] := by
  obtain ⟨taken, left, braces, htext, hchoice, hspace, hbraces⟩ := ha.reads_lineChoice hl hrest
  have hend := ha.readAll_lineEnd hrest
  have hbraces : (Step.optional (.rule "Attributes")).Skims t isToken braces (['\n'] ++ rest)
      (attributesNodes l.attributes) := hbraces
  have hspace : (Step.star (.rule "RULE_WHITESPACE")).Skims t isToken left (braces ++ ['\n'] ++ rest) [] := by
    simpa using hspace
  have hchoice : (Step.one (.rule "%Choice")).Reads t isToken (Item.choiceText l.choice ++ taken)
      (left ++ (braces ++ ['\n']) ++ rest) (l.choice.map Item.sequenceNode) := by
    refine Step.reads_one (Target.reads_rule ?_)
    simpa using hchoice
  have hopens : Clear opensBlank (Item.choiceText l.choice ++ taken ++ (left ++ (braces ++ ['\n'])) ++ rest) := by
    obtain ⟨c, cs, htext, hc⟩ := Phrasal.opensItem_choiceText hl.choice hl.items
    rw [htext]
    exact clear_cons.2 (not_opensBlank hc)
  have hall := ha.readAll_definition hl.name hopens (hchoice.cons (hspace.cons (hbraces.cons hend)).skimAll)
  have hread := Table.reads_branch ha.production (by decide) (by decide) hall.first
  rw [Line.text, htext, Line.node]
  simpa using hread

/-! ## Grammars -/

theorem reads_lines (ha : Attributed t) {lines : List Line} (h : ∀ l ∈ lines, l.Legible) :
    (Step.star (.rule "%Atomic")).Skims t isToken (lines.flatMap Line.text) [] (lines.map Line.node) := by
  refine ha.skims_lines ha.line ?_ (fun l hl => (h l hl).name) fun l hl rest hrest => ha.reads_production (h l hl) hrest
  refine Table.answers_rule_none ha.production ?_
  simp only [List.forall_mem_singleton]
  exact Step.rejected_of_none (ha.name_none (clear_nil _))

/-- Lines one after another are read as those of a grammar. -/
theorem readFirst_grammar (ha : Attributed t) {lines : List Line} (h : ∀ l ∈ lines, l.Legible) :
    Step.ReadFirst t isToken grammarSteps (lines.flatMap Line.text) [] (lines.map Line.node) := by
  have hclear := clear_lines fun l hl => (h l hl).name
  have hspace : (Step.star (.rule "RULE_S")).Skims t isToken [] (lines.flatMap Line.text ++ []) [] := by
    rw [List.append_nil]
    exact ha.skims_spacing nofun (hclear.imp fun c hc => by simp [extendsLine, hc])
  have hbraces : (Step.optional (.rule "Attributes")).Skims t isToken [] (lines.flatMap Line.text ++ []) [] := by
    rw [List.append_nil]
    exact Step.skims_optional_of_none (ha.attributes_none (hclear.imp fun c hc => by simp_all))
  have hend : (Step.one .endOfInput).Reads t isToken [] [] [] := Step.reads_one Target.reads_endOfInput
  have hlines := (ha.reads_lines h).cons hend.alone
  rw [List.append_nil] at hlines
  have hall := hspace.cons (hbraces.cons (hspace.cons hlines))
  simpa [grammarSteps] using hall.first

end Attributed

end Grammarian.Notation
