import Grammarian.Proofs.Notation.Surface

/-!
# Reading items and alternatives

The notations read items, sequences, alternatives and groups by rules of the same form. A sequence of one
item takes the blank behind it, a longer one leaves it, so what is read behind a sequence is told for both.
-/

namespace Grammarian.Notation

namespace Style

/-- The names that the notations have for the same rules. -/
def itemRule : Style → String
  | w3c => "Item"
  | attributed => "%Item"

def choiceRule : Style → String
  | w3c => "Choice"
  | attributed => "%Choice"

/-- The rule for what may stand around bars and within parentheses. -/
def gapRule : Style → String
  | w3c => "RULE_WHITESPACE"
  | attributed => "RULE_S"

end Style

/-- A table with the rules for alternatives. -/
structure Phrasal (style : Style) (t : Table) : Prop extends Lexical t where
  choice : t.declares style.choiceRule true
    [[.one (.rule "SequenceOrDifference"), .star (.rule "%_Choice_1")]] = true
  further : t.declares "%_Choice_1" true
    [[.star (.rule style.gapRule), .one (.literal ['|']), .star (.rule style.gapRule),
      .one (.rule "SequenceOrDifference")]] = true
  sequence : t.declares "SequenceOrDifference" false
    [[.one (.rule style.itemRule), .star (.rule "RULE_WHITESPACE"), .optional (.rule "%_Item_1")]] = true
  moreItems : t.declares "%_Item_1" true
    [[.one (.rule "Minus"), .one (.rule style.itemRule)], [.star (.rule style.itemRule)]] = true
  minus : t.declares "Minus" false [[.one (.literal ['-'])]] = true
  item : t.declares style.itemRule true
    [[.star (.rule "RULE_WHITESPACE"), .optional (.rule "PrimaryPreDecoration"), .one (.rule "%Primary"),
      .optional (.rule "PrimaryDecoration")]] = true
  tail : t.declares "PrimaryDecoration" false (tailMarks.map oneChar) = true
  lead : t.declares "PrimaryPreDecoration" false (style.leadMarks.map oneChar) = true
  primary : t.declares "%Primary" true
    [[.one (.rule "NCName")], [.one (.rule "StringLiteral")], [.one (.rule "CharCode")],
      [.one (.rule "CharClass")], [.one (.rule "SubItem")]] = true
  group : t.declares "SubItem" false
    [[.one (.literal ['(']), .star (.rule style.gapRule), .one (.rule style.choiceRule),
      .star (.rule style.gapRule), .one (.literal [')'])]] = true
  reads_quoted : ∀ {text : List Char}, IsQuoted text → ∀ rest,
    t.Reads isToken "StringLiteral" text rest [.token "StringLiteral" text]
  quoted_none : ∀ {input : List Char}, Clear Literal.isQuote input →
    (Target.rule "StringLiteral").Answers t input none

namespace Phrasal

variable {style : Style} {t : Table} {text rest input lead tail : List Char}

/-! ## Items -/

/-- No group starts without its parenthesis. -/
theorem group_none (hp : Phrasal style t) (hinput : Clear (· = '(') input) :
    (Target.rule "SubItem").Answers t input none := by
  refine Table.answers_rule_none hp.group ?_
  simp only [List.forall_mem_singleton]
  exact Step.rejected_of_none (Target.answers_literal_none fun d hd => of_decide_eq_false (hinput d hd))

/-- No primary starts with a character that opens none. -/
theorem primary_none (hp : Phrasal style t) (hinput : Clear opensPrimary input) :
    (Target.rule "%Primary").Answers t input none := by
  refine Table.answers_rule_none hp.primary ?_
  simp only [List.forall_mem_cons]
  refine ⟨?_, ?_, ?_, ?_, ?_, by simp⟩
  · exact Step.rejected_of_none (hp.name_none (hinput.imp fun c hc => by simp [opensPrimary, hc]))
  · exact Step.rejected_of_none (hp.quoted_none (hinput.imp fun c hc => by simp [opensPrimary, hc]))
  · exact Step.rejected_of_none (hp.code_none_of_clear (hinput.imp fun c hc => by simp_all [opensPrimary]))
  · exact Step.rejected_of_none (hp.class_none (hinput.imp fun c hc => by simp_all [opensPrimary]))
  · exact Step.rejected_of_none (hp.group_none (hinput.imp fun c hc => by simp_all [opensPrimary]))

/-- A lexeme is read as a primary. -/
theorem reads_primary (hp : Phrasal style t) {kind : String} (htext : Lexeme kind text)
    (hrest : Clear isNameChar rest) : t.Reads isToken "%Primary" text rest [.token kind text] := by
  have hfound : ∀ {name : String} {alts : List (List Step)},
      t.Reads isToken name text rest [.token name text] →
        Step.ReadFirst t isToken ([.one (.rule name)] :: alts) text rest [.token name text] :=
    fun hread => (Step.reads_one (Target.reads_rule hread)).alone.first
  refine Table.reads_fragment hp.primary ?_
  cases htext with
  | name h => exact hfound (hp.reads_name h hrest)
  | quoted h =>
    have hread := hp.reads_quoted h rest
    obtain ⟨q, body, rfl, hq, -⟩ := h
    have hletter : Text.isAsciiLetter q = false := by
      simp only [Literal.isQuote, Bool.or_eq_true, decide_eq_true_eq] at hq
      rcases hq with rfl | rfl
      · decide
      · decide
    refine .next (Step.rejected_of_none (hp.name_none ?_)) (hfound hread)
    exact clear_cons.2 hletter
  | code h =>
    have hread := hp.reads_code h (hrest.imp fun c hc => by simp [isNameChar, hc])
    obtain ⟨cs, rfl, -⟩ := h
    refine .next (Step.rejected_of_none (hp.name_none ?_)) ?_
    · exact clear_cons.2 (by decide)
    refine .next (Step.rejected_of_none (hp.quoted_none ?_)) (hfound hread)
    exact clear_cons.2 (by decide)
  | charClass h =>
    have hread := hp.reads_class h rest
    obtain ⟨caret, body, rfl, -⟩ := h
    refine .next (Step.rejected_of_none (hp.name_none ?_)) ?_
    · exact clear_cons.2 (by decide)
    refine .next (Step.rejected_of_none (hp.quoted_none ?_)) ?_
    · exact clear_cons.2 (by decide)
    refine .next (Step.rejected_of_none (hp.code_none_of_clear ?_)) (hfound hread)
    exact clear_cons.2 (by decide)

/-- A group that is read is read as a primary. -/
theorem reads_primary_group (hp : Phrasal style t) {ns : List Node}
    (hread : t.Reads isToken "SubItem" ('(' :: text) rest ns) :
    t.Reads isToken "%Primary" ('(' :: text) rest ns := by
  refine Table.reads_fragment hp.primary ?_
  refine .next (Step.rejected_of_none (hp.name_none ?_)) ?_
  · exact clear_cons.2 (by decide)
  refine .next (Step.rejected_of_none (hp.quoted_none ?_)) ?_
  · exact clear_cons.2 (by decide)
  refine .next (Step.rejected_of_none (hp.code_none_of_clear ?_)) ?_
  · exact clear_cons.2 (by decide)
  refine .next (Step.rejected_of_none (hp.class_none ?_)) ?_
  · exact clear_cons.2 (by decide)
  exact (Step.reads_one (Target.reads_rule hread)).alone.first

/-- A mark, or none where no mark stands. -/
theorem skims_mark {name : String} {marks : List Char} (hrule : t.declares name false (marks.map oneChar) = true)
    (htoken : isToken name = true) (hkeeps : Draft.keeps false name = true) (htext : IsMark marks text)
    (hrest : text = [] → ∀ c ∈ rest.head?, c ∉ marks) :
    (Step.optional (.rule name)).Skims t isToken text rest (markNodes name text) := by
  rcases htext with rfl | ⟨c, hc, rfl⟩
  · have hnone := Table.answers_rule_none hrule (rejected_oneChar (hrest rfl))
    exact Step.skims_optional_of_none hnone
  · have hread := Table.reads_token hrule htoken hkeeps (readFirst_oneChar hc rest)
    exact (Step.reads_optional (Target.reads_rule hread)).skims

theorem clear_isNameChar_of_mark (htail : IsMark tailMarks tail) (hrest : Clear extendsItem rest) :
    Clear isNameChar (tail ++ rest) := by
  rcases htail with rfl | ⟨c, hc, rfl⟩
  · exact hrest.imp fun c hc => by simp [extendsItem, hc]
  · have hmarks : ∀ d ∈ tailMarks, isNameChar d = false := by decide
    exact clear_cons.2 (hmarks c hc)

/-- An item is read with its marks and the blanks before it. -/
theorem reads_item_of_primary (hp : Phrasal style t) {blanks : List Char} {n : Node}
    (hblanks : ∀ c ∈ blanks, isBlank c = true) (hlead : IsMark style.leadMarks lead)
    (htail : IsMark tailMarks tail) (hrest : Clear extendsItem rest)
    (hopens : ∃ c cs, text = c :: cs ∧ opensPrimary c = true)
    (hprimary : ∀ rest, Clear isNameChar rest → t.Reads isToken "%Primary" text rest [n]) :
    t.Reads isToken style.itemRule (blanks ++ (lead ++ (text ++ tail))) rest
      (markNodes "PrimaryPreDecoration" lead ++ (n :: markNodes "PrimaryDecoration" tail)) := by
  have hafter : (Step.optional (.rule "PrimaryDecoration")).Skims t isToken tail rest
      (markNodes "PrimaryDecoration" tail) := by
    refine skims_mark hp.tail (by decide) (by decide) htail fun hnil c hc hmem => ?_
    have hclear := hrest c hc
    simp [extendsItem, hmem] at hclear
  have hitself : (Step.one (.rule "%Primary")).Reads t isToken text (tail ++ rest) [n] :=
    Step.reads_one (Target.reads_rule (hprimary _ (clear_isNameChar_of_mark htail hrest)))
  have hbefore : (Step.optional (.rule "PrimaryPreDecoration")).Skims t isToken lead
      (text ++ tail ++ rest) (markNodes "PrimaryPreDecoration" lead) := by
    refine skims_mark hp.lead (by decide) (by decide) hlead fun hnil c hc hmem => ?_
    obtain ⟨d, ds, rfl, hd⟩ := hopens
    cases hc
    exact not_mem_leadMarks hd hmem
  have hspace : (Step.star (.rule "RULE_WHITESPACE")).Skims t isToken blanks
      (lead ++ (text ++ tail) ++ rest) [] := by
    refine hp.skims_blanks hblanks ?_
    obtain ⟨c, cs, hfront, hc⟩ := hlead.opens hopens
    rw [← List.append_assoc lead, hfront]
    exact clear_cons.2 (not_opensBlank hc)
  have hall := hspace.cons (hbefore.cons (hitself.cons hafter.alone))
  exact Table.reads_fragment hp.item hall.first

/-- No item stands where there is only white space before what no item begins with. -/
theorem item_none_behind (hp : Phrasal style t) {ds : List Draft} {started : Bool}
    (hspace : (Step.star (.rule "RULE_WHITESPACE")).Passes t input ds rest started) (hrest : Clear opensItem rest) :
    (Target.rule style.itemRule).Answers t input none := by
  have hmarks : ∀ d ∈ style.leadMarks, opensItem d = true := by
    cases style
    · decide
    · decide
  have hlead : (Target.rule "PrimaryPreDecoration").Answers t rest none := by
    refine Table.answers_rule_none hp.lead (rejected_oneChar fun c hc hmem => ?_)
    have hclear := hrest c hc
    rw [hmarks c hmem] at hclear
    cases hclear
  have hprimary := hp.primary_none (hrest.imp fun c hc => by simp [opensItem, hc])
  refine Table.answers_rule_none hp.item ?_
  simp only [List.forall_mem_singleton]
  exact .inl (.later hspace (.later (Step.passes_optional_of_none hlead) (.here (Step.fails_one hprimary))))

/-- Behind blanks, no item starts with a character that opens none. -/
theorem item_none (hp : Phrasal style t) {blanks : List Char} (hblanks : ∀ c ∈ blanks, isBlank c = true)
    (hrest : Clear (fun c => opensItem c || opensBlank c) rest) :
    (Target.rule style.itemRule).Answers t (blanks ++ rest) none := by
  obtain ⟨ds, ⟨started, hspace⟩, -⟩ := hp.skims_blanks hblanks (hrest.imp fun c hc => by simp [hc])
  exact hp.item_none_behind hspace (hrest.imp fun c hc => by simp [hc])

/-- What an item is read as, whatever blanks stand before it. -/
def ReadsItem (style : Style) (t : Table) (i : Item) : Prop :=
  ∀ {blanks rest : List Char}, (∀ c ∈ blanks, isBlank c = true) → Clear extendsItem rest →
    t.Reads isToken style.itemRule (blanks ++ i.text) rest i.nodes

/-! ## Sequences -/

/-- The characters that a sequence goes on with. -/
def extendsSequence (c : Char) : Bool := opensItem c || opensBlank c || extendsItem c || c = '-'

theorem clear_extendsItem_append {blanks : List Char} (hblanks : ∀ c ∈ blanks, isBlank c = true)
    (hrest : Clear extendsItem rest) : Clear extendsItem (blanks ++ rest) := by
  refine Clear.append (fun c hc => ?_) hrest
  have hblank := hblanks c (List.mem_of_mem_head? hc)
  simp only [isBlank, Bool.or_eq_true, decide_eq_true_eq] at hblank
  rcases hblank with rfl | rfl
  · decide
  · decide

/-- No difference starts without its hyphen. -/
theorem minus_none (hp : Phrasal style t) (hinput : Clear (· = '-') input) :
    Step.Rejected t [.one (.rule "Minus"), .one (.rule style.itemRule)] input := by
  refine Step.rejected_of_none (Table.answers_rule_none hp.minus ?_)
  simp only [List.forall_mem_singleton]
  exact Step.rejected_of_none (Target.answers_literal_none fun d hd => of_decide_eq_false (hinput d hd))

/-- Where nothing extends the sequence, no further item is read. -/
theorem moreItems_none (hp : Phrasal style t) (hrest : Clear extendsSequence rest) :
    (Target.rule "%_Item_1").Answers t rest none := by
  refine Table.answers_rule_none hp.moreItems ?_
  simp only [List.forall_mem_cons]
  refine ⟨hp.minus_none (hrest.imp fun c hc => by simp_all [extendsSequence]), ?_, by simp⟩
  have hnone : (Target.rule style.itemRule).Answers t ([] ++ rest) none := by
    refine hp.item_none (by simp) (hrest.imp fun c hc => ?_)
    simp only [extendsSequence, Bool.or_eq_true] at hc ⊢
    exact Or.inl (Or.inl hc)
  exact Or.inr ⟨_, _, .cons (Step.passes_star_of_none hnone) (.nil _)⟩

/-- Further items are read one after another. -/
theorem reads_moreItems (hp : Phrasal style t) {second : Item} {others : List Item}
    (h : ∀ i ∈ second :: others, i.Legible style ∧ ReadsItem style t i) {gap : List Char}
    (hgap : ∀ c ∈ gap, isBlank c = true) (hrest : Clear extendsSequence rest) :
    t.Reads isToken "%_Item_1" (second.text ++ others.flatMap fun i => ' ' :: i.text) (gap ++ rest)
      (second.nodes ++ others.flatMap Item.nodes) := by
  have hextends : Clear extendsItem (gap ++ rest) :=
    clear_extendsItem_append hgap (hrest.imp fun c hc => by simp [extendsSequence, hc])
  have hnone : (Target.rule style.itemRule).Answers t (gap ++ rest) none := by
    refine hp.item_none hgap (hrest.imp fun c hc => ?_)
    simp only [extendsSequence, Bool.or_eq_true] at hc ⊢
    exact Or.inl (Or.inl hc)
  -- the first item stands behind a blank that is read already, each other one has its own
  let spell : List Char × Item → List Char := fun x => x.1 ++ x.2.text
  let pieces : List (List Char × Item) := ([], second) :: others.map ([' '], ·)
  have hspell : pieces.flatMap spell = second.text ++ others.flatMap fun i => ' ' :: i.text := by
    simp [pieces, spell, List.flatMap_map]
  have hnodes : (pieces.flatMap fun x => x.2.nodes) = second.nodes ++ others.flatMap Item.nodes := by
    simp [pieces, List.flatMap_map]
  have hrounds : (Target.rule style.itemRule).ReadsRounds t isToken (pieces.flatMap spell) (gap ++ rest)
      (pieces.flatMap fun x => x.2.nodes) := by
    have hmember : ∀ x ∈ pieces, x.2 ∈ second :: others ∧ ∀ c ∈ x.1, isBlank c = true := by
      simp only [pieces, List.forall_mem_cons, List.forall_mem_map]
      exact ⟨⟨List.mem_cons_self, nofun⟩, fun i hi => ⟨List.mem_cons_of_mem _ hi, by decide⟩⟩
    refine Target.readsRounds_flatMap (List.cons_ne_nil _ _) (fun x hx => ?_) (fun x back hback => ?_)
      (Or.inr hnone)
    · have hne := (h _ (hmember x hx).1).1.text_ne_nil
      simp [spell, hne]
    · obtain ⟨hitem, hblanks⟩ := hmember x (hback.subset List.mem_cons_self)
      refine Target.reads_rule ((h _ hitem).2 hblanks (Clear.append ?_ hextends))
      have hothers : back <:+ others.map ([' '], ·) := by
        rcases List.suffix_cons_iff.1 hback with heq | hsuffix
        · cases heq
          exact List.suffix_rfl
        · exact (List.suffix_cons x back).trans hsuffix
      cases back with
      | nil => exact clear_nil _
      | cons y ys =>
        obtain ⟨i, -, rfl⟩ := List.mem_map.1 (hothers.subset List.mem_cons_self)
        exact clear_cons.2 (by decide)
  rw [hspell, hnodes] at hrounds
  refine Table.reads_fragment hp.moreItems (.next (hp.minus_none ?_) (Step.reads_star hrounds).alone.first)
  obtain ⟨c, cs, htext, hc⟩ := (h second List.mem_cons_self).1.opens
  rw [htext]
  refine clear_cons.2 ?_
  cases hminus : decide (c = '-') with
  | false => rfl
  | true =>
    rw [of_decide_eq_true hminus] at hc
    exact absurd hc (by decide)

/-- A sequence is read with the blanks behind it, or leaves them. -/
theorem reads_sequence (hp : Phrasal style t) {s : List Item} (hne : s ≠ [])
    (h : ∀ i ∈ s, i.Legible style ∧ ReadsItem style t i) {gap : List Char}
    (hgap : ∀ c ∈ gap, isBlank c = true) (hrest : Clear extendsSequence rest) :
    ∃ taken left, gap = taken ++ left ∧
      t.Reads isToken "SequenceOrDifference" (Item.sequenceText s ++ taken) (left ++ rest)
        [Item.sequenceNode s] := by
  have hextends : Clear extendsItem (gap ++ rest) :=
    clear_extendsItem_append hgap (hrest.imp fun c hc => by simp [extendsSequence, hc])
  cases s with
  | nil => exact absurd rfl hne
  | cons first more =>
    obtain ⟨hfirst, hmore⟩ := List.forall_mem_cons.1 h
    have hitem : ∀ rest, Clear extendsItem rest →
        (Step.one (.rule style.itemRule)).Reads t isToken first.text rest first.nodes := by
      intro rest hclear
      have hread : t.Reads isToken style.itemRule ([] ++ first.text) rest first.nodes :=
        hfirst.2 nofun hclear
      exact Step.reads_one (Target.reads_rule hread)
    cases more with
    | nil =>
      refine ⟨gap, [], (List.append_nil gap).symm, ?_⟩
      have hspace : (Step.star (.rule "RULE_WHITESPACE")).Skims t isToken gap ([] ++ rest) [] :=
        hp.skims_blanks hgap (hrest.imp fun c hc => by simp [extendsSequence, hc])
      have hnone : (Step.optional (.rule "%_Item_1")).Skims t isToken [] rest [] :=
        Step.skims_optional_of_none (hp.moreItems_none hrest)
      rw [← List.append_nil gap] at hextends
      have hall := (hitem _ hextends).cons (hspace.cons_skimAll hnone.alone)
      rw [List.append_nil] at hall
      have hread := Table.reads_branch hp.sequence (by decide) (by decide) hall.first
      simpa [Item.sequenceText, Item.sequenceNode] using hread
    | cons second others =>
      refine ⟨[], gap, rfl, ?_⟩
      obtain ⟨c, cs, htext, hc⟩ := (hmore second List.mem_cons_self).1.opens
      have hrounds := (Step.reads_optional (Target.reads_rule (hp.reads_moreItems hmore hgap hrest))).skims
      have hspace : (Step.star (.rule "RULE_WHITESPACE")).Skims t isToken [' ']
          ((second.text ++ others.flatMap fun i => ' ' :: i.text) ++ (gap ++ rest)) [] := by
        refine hp.skims_blanks (by decide) ?_
        rw [htext]
        exact clear_cons.2 (not_opensBlank hc)
      have hall := (hitem _ (clear_cons.2 (by decide))).cons (hspace.cons_skimAll hrounds.alone)
      have hread := Table.reads_branch hp.sequence (by decide) (by decide) hall.first
      rw [List.append_nil, Item.sequenceText, List.map_cons, intercalate_cons_eq_append, List.map_cons,
        List.flatMap_cons, List.flatMap_map]
      simpa [Item.sequenceNode] using hread

/-! ## Alternatives and groups -/

/-- White space in a gap is passed over. -/
theorem skims_gap (hp : Phrasal style t) {gap : List Char} (hgap : ∀ c ∈ gap, isBlank c = true)
    (hrest : Clear opensSpacing rest) : (Step.star (.rule style.gapRule)).Skims t isToken gap rest [] := by
  cases style with
  | w3c =>
    refine hp.skims_blanks hgap (hrest.imp fun c hc => ?_)
    simp only [opensBlank, opensSpacing, isSpacing, Bool.or_eq_true] at hc ⊢
    tauto
  | attributed => exact hp.skims_spacing (fun c hc => by simp [isSpacing, hgap c hc]) hrest

/-- No further alternative stands where there is no bar. -/
theorem further_none (hp : Phrasal style t) {gap : List Char}
    (hgap : (Step.star (.rule style.gapRule)).Skims t isToken gap rest [])
    (hrest : Clear (· = '|') rest) : (Target.rule "%_Choice_1").Answers t (gap ++ rest) none := by
  refine Table.answers_rule_none hp.further ?_
  simp only [List.forall_mem_singleton]
  refine Or.inl (hgap.failsAt (.here (Step.fails_one (Target.answers_literal_none fun d hd => ?_))))
  exact of_decide_eq_false (hrest d hd)

/-- What can be said about the sequences of a choice before it is read. -/
def ReadsAll (style : Style) (t : Table) (choice : List (List Item)) : Prop :=
  choice ≠ [] ∧ ∀ s ∈ choice, s ≠ [] ∧ ∀ i ∈ s, i.Legible style ∧ ReadsItem style t i

/-- One more alternative behind a bar. -/
theorem reads_further_of_sequence (hp : Phrasal style t) {before : List Char} {n : Node}
    (hbefore : ∀ c ∈ before, isBlank c = true) (htext : Clear opensSpacing (text ++ rest))
    (hread : t.Reads isToken "SequenceOrDifference" text rest [n]) :
    (Target.rule "%_Choice_1").Reads t isToken (before ++ (['|', ' '] ++ text)) rest [n] := by
  have hgap : (Step.star (.rule style.gapRule)).Skims t isToken before (['|', ' '] ++ text ++ rest) [] :=
    hp.skims_gap hbefore (clear_cons.2 (by decide))
  have hbar : (Step.one (.literal ['|'])).Reads t isToken ['|'] ([' '] ++ text ++ rest) [] :=
    Step.reads_one (Target.reads_literal (by simp) _)
  have hblank : (Step.star (.rule style.gapRule)).Skims t isToken [' '] (text ++ rest) [] :=
    hp.skims_gap (by decide) htext
  have hlast := (Step.reads_one (Target.reads_rule hread)).alone
  have hall := hgap.cons (hbar.cons (hblank.cons hlast).skimAll)
  exact Target.reads_rule (Table.reads_fragment hp.further hall.first)

/-- The text of a sequence opens an item. -/
theorem opensItem_sequenceText {s : List Item} (hne : s ≠ []) (h : ∀ i ∈ s, i.Legible style) :
    ∃ c cs, Item.sequenceText s = c :: cs ∧ opensItem c = true := by
  obtain ⟨i, is, rfl⟩ := List.exists_cons_of_ne_nil hne
  obtain ⟨c, cs, htext, hc⟩ := (h i List.mem_cons_self).opens
  rw [Item.sequenceText, List.map_cons, intercalate_cons_eq_append, htext]
  exact ⟨c, _, rfl, hc⟩

/-- The text of a choice opens an item. -/
theorem opensItem_choiceText {choice : List (List Item)} (hne : choice ≠ [])
    (h : ∀ s ∈ choice, s ≠ [] ∧ ∀ i ∈ s, i.Legible style) :
    ∃ c cs, Item.choiceText choice = c :: cs ∧ opensItem c = true := by
  obtain ⟨s, ss, rfl⟩ := List.exists_cons_of_ne_nil hne
  obtain ⟨hs, hitems⟩ := h s List.mem_cons_self
  obtain ⟨c, cs, htext, hc⟩ := opensItem_sequenceText hs hitems
  rw [Item.choiceText, List.map_cons, intercalate_cons_eq_append, htext]
  exact ⟨c, _, rfl, hc⟩

section Bar

variable {taken left : List Char} (hblank : [' '] = taken ++ left)

include hblank

/-- Where the blank before a bar is cut, the first alternative ends and the others begin. -/
theorem choiceText_cut (s next : List Item) (others : List (List Item)) (behind : List Char) :
    Item.choiceText (s :: next :: others) ++ behind =
      Item.sequenceText s ++ taken ++ (left ++ (['|', ' '] ++ (Item.choiceText (next :: others) ++ behind))) := by
  have hcut : [' ', '|', ' '] = taken ++ (left ++ ['|', ' ']) := by
    rw [← List.append_assoc, ← hblank]
    rfl
  rw [Item.choiceText_cons_cons, hcut]
  simp only [List.append_assoc]

theorem isBlank_of_cut : ∀ c ∈ left, isBlank c = true := by
  intro c hc
  have hmem : c ∈ [' '] := by
    rw [hblank]
    exact List.mem_append_right _ hc
  rw [List.mem_singleton.1 hmem]
  decide

end Bar

/-- The alternatives behind the first one. The induction is on them, with what the alternative before has
left of the blank behind it. -/
theorem reads_further (hp : Phrasal style t) {choice : List (List Item)} (h : ReadsAll style t choice)
    {before gap : List Char} (hbefore : ∀ c ∈ before, isBlank c = true)
    (hgap : ∀ c ∈ gap, isBlank c = true) (hrest : Clear extendsSequence rest)
    (hend : ∀ left, left <:+ gap → (Target.rule "%_Choice_1").Answers t (left ++ rest) none) :
    ∃ taken left, gap = taken ++ left ∧
      (Target.rule "%_Choice_1").ReadsRounds t isToken
        (before ++ (['|', ' '] ++ (Item.choiceText choice ++ taken))) (left ++ rest)
        (choice.map Item.sequenceNode) := by
  obtain ⟨hne, h⟩ := h
  induction choice generalizing before with
  | nil => exact absurd rfl hne
  | cons s choice ih =>
    rw [List.forall_mem_cons] at h
    obtain ⟨⟨hs, hitems⟩, hmore⟩ := h
    obtain ⟨c, cs, htext, hc⟩ := opensItem_sequenceText hs fun i hi => (hitems i hi).1
    have hopens : ∀ rest, Clear opensSpacing (Item.sequenceText s ++ rest) := by
      intro rest
      rw [htext]
      exact clear_cons.2 (not_opensSpacing hc)
    cases choice with
    | nil =>
      obtain ⟨taken, left, rfl, hread⟩ := hp.reads_sequence hs hitems hgap hrest
      refine ⟨taken, left, rfl, ?_⟩
      have hround := hp.reads_further_of_sequence hbefore (by rw [List.append_assoc]; exact hopens _) hread
      have hlast := Target.readsRounds_last hround (Or.inr (hend left (List.suffix_append _ _)))
      simpa [Item.choiceText] using hlast
    | cons next others =>
      have hbar : Clear extendsSequence
          (['|', ' '] ++ (Item.choiceText (next :: others) ++ (gap ++ rest))) := clear_cons.2 (by decide)
      obtain ⟨taken', left', hblank, hread⟩ := hp.reads_sequence hs hitems (show ∀ c ∈ [' '], _ by decide) hbar
      obtain ⟨taken, left, rfl, hrounds⟩ := ih (isBlank_of_cut hblank) (List.cons_ne_nil _ _) hmore
      refine ⟨taken, left, rfl, ?_⟩
      have hround := hp.reads_further_of_sequence hbefore (by rw [List.append_assoc]; exact hopens _) hread
      have hafter : left' ++ (['|', ' '] ++ (Item.choiceText (next :: others) ++ (taken ++ left ++ rest))) =
          left' ++ (['|', ' '] ++ (Item.choiceText (next :: others) ++ taken)) ++ (left ++ rest) := by
        simp only [List.append_assoc]
      rw [hafter] at hround
      have hboth := Target.readsRounds_more hround (by simp) (by simp) hrounds
      rw [choiceText_cut hblank]
      simpa only [List.append_assoc, List.map_cons, List.singleton_append] using hboth

/-- Alternatives are read with the blanks behind them, or leave them. -/
theorem reads_choice (hp : Phrasal style t) {choice : List (List Item)} (h : ReadsAll style t choice)
    {gap : List Char} (hgap : ∀ c ∈ gap, isBlank c = true) (hrest : Clear extendsSequence rest)
    (hend : ∀ left, left <:+ gap → (Target.rule "%_Choice_1").Answers t (left ++ rest) none) :
    ∃ taken left, gap = taken ++ left ∧
      t.Reads isToken style.choiceRule (Item.choiceText choice ++ taken) (left ++ rest)
        (choice.map Item.sequenceNode) := by
  obtain ⟨hne, h⟩ := h
  obtain ⟨s, more, rfl⟩ := List.exists_cons_of_ne_nil hne
  obtain ⟨⟨hs, hitems⟩, hmore⟩ := List.forall_mem_cons.1 h
  cases more with
  | nil =>
    obtain ⟨taken, left, rfl, hread⟩ := hp.reads_sequence hs hitems hgap hrest
    refine ⟨taken, left, rfl, ?_⟩
    have hnone : (Step.star (.rule "%_Choice_1")).Skims t isToken [] (left ++ rest) [] :=
      Step.skims_star_of_none (hend left (List.suffix_append _ _))
    rw [← List.nil_append (left ++ rest)] at hread
    have hall := (Step.reads_one (Target.reads_rule hread)).cons hnone.alone
    have hchoice := Table.reads_fragment hp.choice hall.first
    simpa [Item.choiceText] using hchoice
  | cons next others =>
    have hbar : Clear extendsSequence
        (['|', ' '] ++ (Item.choiceText (next :: others) ++ (gap ++ rest))) := clear_cons.2 (by decide)
    obtain ⟨taken', left', hblank, hread⟩ := hp.reads_sequence hs hitems (show ∀ c ∈ [' '], _ by decide) hbar
    obtain ⟨taken, left, rfl, hrounds⟩ :=
      hp.reads_further ⟨List.cons_ne_nil _ _, hmore⟩ (isBlank_of_cut hblank) hgap hrest hend
    refine ⟨taken, left, rfl, ?_⟩
    have hafter : left' ++ (['|', ' '] ++ (Item.choiceText (next :: others) ++ (taken ++ left ++ rest))) =
        left' ++ (['|', ' '] ++ (Item.choiceText (next :: others) ++ taken)) ++ (left ++ rest) := by
      simp only [List.append_assoc]
    rw [hafter] at hread
    have hall := (Step.reads_one (Target.reads_rule hread)).cons (Step.reads_star hrounds).skims.alone
    rw [choiceText_cut hblank]
    exact Table.reads_fragment hp.choice hall.first

/-- A group is read in its parentheses, where its alternatives are. -/
theorem reads_group (hp : Phrasal style t) {choice : List (List Item)} (h : ReadsAll style t choice)
    (rest : List Char) :
    t.Reads isToken "SubItem" ('(' :: (Item.choiceText choice ++ [')'])) rest
      [.branch "SubItem" (choice.map Item.sequenceNode)] := by
  have hgap : ∀ {rest : List Char}, Clear opensSpacing rest →
      (Step.star (.rule style.gapRule)).Skims t isToken [] rest [] := fun hclear => hp.skims_gap nofun hclear
  have hparen : Clear opensSpacing (')' :: rest) := clear_cons.2 (by decide)
  obtain ⟨taken, left, hempty, hread⟩ := hp.reads_choice h (show ∀ c ∈ [], _ from nofun)
    (show Clear extendsSequence (')' :: rest) from clear_cons.2 (by decide)) (by
      intro left hleft
      rw [List.suffix_nil.1 hleft]
      exact hp.further_none (hgap hparen) (clear_cons.2 (by decide)))
  obtain ⟨rfl, rfl⟩ := List.append_eq_nil_iff.1 hempty.symm
  rw [List.append_nil] at hread
  have hread : t.Reads isToken style.choiceRule (Item.choiceText choice) ([] ++ [')'] ++ rest)
      (choice.map Item.sequenceNode) := hread
  have hopen : (Step.one (.literal ['('])).Reads t isToken ['(']
      ([] ++ (Item.choiceText choice ++ ([] ++ [')'])) ++ rest) [] :=
    Step.reads_one (Target.reads_literal (by simp) _)
  have hclose : (Step.one (.literal [')'])).Reads t isToken [')'] rest [] :=
    Step.reads_one (Target.reads_literal (by simp) rest)
  have hopens : Clear opensSpacing (Item.choiceText choice ++ ([] ++ [')']) ++ rest) := by
    obtain ⟨c, cs, htext, hc⟩ := opensItem_choiceText h.1 fun s hs => ⟨(h.2 s hs).1, fun i hi => ((h.2 s hs).2 i hi).1⟩
    rw [htext]
    exact clear_cons.2 (not_opensSpacing hc)
  have hinner := (Step.reads_one (Target.reads_rule hread)).cons ((hgap hparen).cons hclose.alone).skimAll
  have hall := hopen.cons ((hgap hopens).cons hinner).skimAll
  have hread := Table.reads_branch hp.group (by decide) (by decide) hall.first
  simpa using hread

/-- Items are read with their marks. The induction is on the nesting of groups. -/
theorem reads_item (hp : Phrasal style t) {i : Item} (hi : i.Legible style) : ReadsItem style t i := by
  induction i with
  | token kind lead text tail =>
    intro blanks rest hblanks hrest
    cases hi with
    | token htext hlead htail =>
      exact hp.reads_item_of_primary hblanks hlead htail hrest htext.opens fun rest hclear =>
        hp.reads_primary htext hclear
  | group lead choice tail ih =>
    intro blanks rest hblanks hrest
    cases hi with
    | group hlead htail hne hnes hitems =>
      have hall : ReadsAll style t choice :=
        ⟨hne, fun s hs => ⟨hnes s hs, fun i hi => ⟨hitems s hs i hi, ih s hs i hi (hitems s hs i hi)⟩⟩⟩
      have hread := hp.reads_item_of_primary hblanks hlead htail hrest ⟨'(', _, rfl, by decide⟩
        fun rest _ => hp.reads_primary_group (hp.reads_group hall rest)
      rw [Item.text_group, Item.nodes_group]
      simpa using hread

/-- Alternatives of legible items, with what must not stand behind them. -/
theorem readsAll_of_legible (hp : Phrasal style t) {choice : List (List Item)} (hne : choice ≠ [])
    (h : ∀ s ∈ choice, s ≠ [] ∧ ∀ i ∈ s, i.Legible style) : ReadsAll style t choice :=
  ⟨hne, fun s hs => ⟨(h s hs).1, fun i hi => ⟨(h s hs).2 i hi, hp.reads_item ((h s hs).2 i hi)⟩⟩⟩

end Phrasal

end Grammarian.Notation
