import Grammarian.Proofs.Notation.W3cSources
import Grammarian.Proofs.Parse.Grading
import Grammarian.Proofs.Parse.Imitation

/-!
# The attributed notation follows the W3C notation

What the rules of the W3C notation match without errors, those of the attributed notation match too, and add nodes
with the same outlines. Where the attributed notation could go on, what stands behind a match matters: `Stops` for
an alternative and `Ceases` for all of them. The induction is on the input left, as only groups lead back to the
rules around them, and a group begins with a parenthesis.
-/

namespace Grammarian.Notation

open Draft Step

/-- The rules that the notations share, with all that is within reach of them. -/
def sharedRules : List String :=
  ["NCName", "%RULE_DoubleQuoted", "%RULE_SingleQuoted", "CharCode", "CharClass", "%RULE_CharClass_1", "RULE_Char",
    "CharRange", "CharCodeRange", "RULE_WHITESPACE", "RULE_S", "%RULE_WHITESPACE_CHAR", "Comment",
    "%RULE_Comment_Body", "RULE_EOL", "%EndOfProduction", "PrimaryDecoration", "Minus"]

/-- The rules for white space and comments, which consume something where they match. -/
def spaceRules : List String := ["RULE_WHITESPACE", "RULE_S", "RULE_EOL"]

/-- A table of the W3C notation and one of the attributed notation that share the rules for lexemes. -/
structure Follows (w a : Table) : Prop where
  source : W3c w
  image : Attributed a
  settles : w.Settles
  settles' : a.Settles
  shared : ∀ name ∈ sharedRules, ∀ input found, w.Ends name input found → a.Ends name input found
  committed : w.declaresCommitted "StringLiteral" quotedSteps = true
  quoted : a.declares "StringLiteral" false quotedSteps = true
  told : w.Respects isToken W3cTold
  leaves : ∀ name input m, w.Ends name input (some m) → m.rest.length ≤ input.length
  advances : ∀ name ∈ spaceRules, ∀ input m, w.Ends name input (some m) → m.rest.length < input.length

section Matches

variable {t : Table} {name : String} {input rest : List Char} {m : Match}

/-- A target that is answered with nothing has no match. -/
theorem not_ends_some (h : (Target.rule name).Answers t input none) : ¬ t.Ends name input (some m) := by
  intro hm
  cases hm.unique (Target.ends_of_answers_none h)

/-- A character of marks, and what stands behind it. -/
theorem cons_of_chooses_oneChar {cs : List Char} {ds : List Draft} (h : Chooses t (cs.map oneChar) input ds rest) :
    ds = [] ∧ ∃ c ∈ cs, input = c :: rest := by
  induction cs with
  | nil => cases h
  | cons c cs ih =>
    cases h with
    | first h =>
      obtain ⟨front, mid, first, back, more, hone, hnil, rfl, -⟩ := passAll_cons h
      obtain ⟨rfl, rfl, -⟩ := passAll_nil hnil
      obtain ⟨hit, hhit, rfl, rfl, -⟩ := hit_of_passes_one hone
      obtain ⟨rest, rfl, rfl⟩ := Target.text_of_answers_literal (by simp) hhit
      exact ⟨rfl, c, List.mem_cons_self, rfl⟩
    | next _ h =>
      obtain ⟨hds, d, hd, hinput⟩ := ih h
      exact ⟨hds, d, List.mem_cons_of_mem c hd, hinput⟩

/-- One of the characters is chosen where it stands first. -/
theorem chooses_oneChar {cs : List Char} {c : Char} (hc : c ∈ cs) (rest : List Char) :
    Chooses t (cs.map oneChar) (c :: rest) [] rest := by
  have hread : Step.ReadFirst t isToken (cs.map oneChar) [c] rest [] := readFirst_oneChar hc rest
  obtain ⟨ds, hchooses, -⟩ := hread
  have hds := (cons_of_chooses_oneChar hchooses).1
  subst hds
  exact hchooses

end Matches

namespace Follows

variable {w a : Table} {name : String} {input rest : List Char} {ds : List Draft} {started : Bool} {m : Match}
  {K : List Char → Prop} {n : Nat}

/-! ## Shared rules -/

/-- A rule that both grammars have comes to the same in both. -/
theorem shared_iff (hf : Follows w a) (hname : name ∈ sharedRules) {found : Option Match} :
    a.Ends name input found ↔ w.Ends name input found := by
  refine ⟨fun h => ?_, hf.shared name hname input found⟩
  obtain ⟨found', hfound⟩ := hf.settles name input
  rwa [h.unique (hf.shared name hname input found' hfound)]

theorem answers (hf : Follows w a) (hname : name ∈ sharedRules) (input : List Char) (got : Option Hit)
    (h : (Target.rule name).Answers w input got) : (Target.rule name).Answers a input got := by
  obtain ⟨found, hfound, rfl⟩ := Target.exists_of_answers_rule h
  exact Target.answers_rule (hf.shared name hname input found hfound)

theorem answers' (hf : Follows w a) (hname : name ∈ sharedRules) (input : List Char) (got : Option Hit)
    (h : (Target.rule name).Answers a input got) : (Target.rule name).Answers w input got := by
  obtain ⟨found, hfound, rfl⟩ := Target.exists_of_answers_rule h
  exact Target.answers_rule ((hf.shared_iff hname).1 hfound)

theorem imitates_shared (hf : Follows w a) (hname : name ∈ sharedRules) (input : List Char) :
    Imitates isToken w a K name name input := .of_ends (hf.shared name hname input)

/-! ## Literals -/

/-- The targets of a literal answer alike in both tables. -/
theorem quoted_transfer {t t' : Table}
    (h : ∀ name ∈ sharedRules, ∀ input got, (Target.rule name).Answers t input got →
      (Target.rule name).Answers t' input got) :
    ∀ alt ∈ quotedSteps, ∀ s ∈ alt, ∀ input got, s.target.Answers t input got → s.target.Answers t' input got := by
  have hliteral : ∀ value : List Char, ∀ input got, (Target.literal value).Answers t input got →
      (Target.literal value).Answers t' input got := fun _ _ _ => Target.answers_transfer (by rintro name ⟨⟩)
  simp only [quotedSteps, List.forall_mem_cons]
  exact ⟨⟨hliteral _, h _ (by decide), hliteral _, List.forall_mem_nil _⟩,
    ⟨hliteral _, h _ (by decide), hliteral _, List.forall_mem_nil _⟩, List.forall_mem_nil _⟩

/-- Where the one grammar reads no literal, neither does the other. -/
theorem quoted_none (hf : Follows w a) (h : w.Ends "StringLiteral" input none) : a.Ends "StringLiteral" input none := by
  obtain ⟨found, hfound⟩ := hf.settles' "StringLiteral" input
  cases found with
  | none => exact hfound
  | some m =>
    have hback := quoted_transfer fun name hname => hf.answers' hname
    have hcontra : ∀ {front alt back} {ds : List Draft} {rest : List Char}, quotedSteps = front ++ alt :: back →
        (∀ a ∈ front, ∃ s more, a = s :: more ∧ s.Fails w input) → ¬ PassAll w alt input ds rest true := by
      intro front alt back ds rest hsteps hfront hall
      have hrule := hf.committed
      rw [hsteps] at hrule
      cases h.unique (Table.Ends.of_passAll hrule hfront hall)
    obtain ⟨ds, hchooses, -⟩ := Table.Ends.chooses hf.settles' hf.quoted (by decide) hfound
    cases hchooses with
    | first hall => exact absurd (hall.transfer (hback _ (by decide))) (@hcontra [] _ _ _ _ rfl nofun)
    | next hnot hchooses =>
      have hall := (passAll_of_chooses hchooses).transfer (hback _ (by decide))
      refine absurd hall (@hcontra [_] _ [] _ _ rfl (List.forall_mem_singleton.2 ⟨_, _, rfl, fails_one ?_⟩))
      obtain ⟨front, mid, first, back, more, hone, -⟩ := passAll_cons hall
      obtain ⟨hit, hhit, -⟩ := hit_of_passes_one hone
      obtain ⟨rest, -, rfl⟩ := Target.text_of_answers_literal (by simp) hhit
      exact Target.answers_literal_none fun d hd => by cases hd; decide

theorem imitates_quoted (hf : Follows w a) (input : List Char) :
    Imitates isToken w a K "StringLiteral" "StringLiteral" input := by
  intro m hm hfaultless _
  have hmem : m ∈ (w.call none (w.budgetFor input) [] 0 "StringLiteral" input).value := by
    have hvalue := hm.matchRule_value
    exact hvalue
  obtain ⟨text, rfl, htold⟩ :=
    Table.call_keeps hf.told _ _ _ _ _ _ m hmem List.suffix_rfl ((errorsAll_eq_nil_iff _).2 hfaultless)
  obtain ⟨front, alt, back, hsteps, hfront, ds, hpasses, -⟩ := hf.source.passAll_quoted (htold.quoted rfl).2 m.rest
  have htransfer := quoted_transfer fun name hname => hf.answers hname
  have hcommitted := hf.committed
  have hquoted := hf.quoted
  rw [hsteps] at hcommitted hquoted htransfer
  rw [List.forall_mem_append, List.forall_mem_cons] at htransfer
  refine ⟨m, ?_, rfl, .refl _⟩
  rw [Option.some.inj (hm.unique (Table.Ends.of_passAll hcommitted hfront hpasses))]
  refine Table.Ends.of_chooses hquoted (Chooses.behind (.first (hpasses.transfer htransfer.2.1)) fun alt halt => ?_)
  obtain ⟨s, more, rfl, hfails⟩ := hfront alt halt
  exact .inl (.here (hfails.transfer (htransfer.1 _ halt s List.mem_cons_self)))

/-! ## Items -/

theorem imitates_lead (hf : Follows w a) (input : List Char) :
    Imitates isToken w a K "PrimaryPreDecoration" "PrimaryPreDecoration" input := by
  refine imitates_node hf.settles hf.source.lead (by decide) hf.image.lead fun ds rest hchooses _ _ => ?_
  obtain ⟨rfl, c, hc, rfl⟩ := cons_of_chooses_oneChar hchooses
  exact ⟨[], chooses_oneChar (List.mem_of_mem_dropLast hc) rest, .refl _⟩

/-- Groups that leave at most `n` characters before them are imitated. -/
def GroupsFollow (w a : Table) (n : Nat) : Prop :=
  ∀ input : List Char, input.length ≤ n → ∀ K, Imitates isToken w a K "SubItem" "SubItem" input

def primaryRules : List String := ["NCName", "StringLiteral", "CharCode", "CharClass", "SubItem"]

/-- A primary is a name, a literal, a code, a class or a group, in this order in both grammars. -/
theorem imitates_primary (hf : Follows w a) (hgroups : GroupsFollow w a n) (hinput : input.length ≤ n) :
    Imitates isToken w a K "%Primary" "%Primary" input := by
  have hnone : ∀ k ∈ primaryRules.dropLast, w.Ends k input none → a.Ends k input none := by
    have hshared : ∀ {k}, k ∈ sharedRules → w.Ends k input none → a.Ends k input none :=
      fun hk => hf.shared _ hk input none
    exact List.forall_mem_cons.2 ⟨hshared (by decide), List.forall_mem_cons.2 ⟨hf.quoted_none,
      List.forall_mem_cons.2 ⟨hshared (by decide), List.forall_mem_singleton.2 (hshared (by decide))⟩⟩⟩
  have hone : ∀ k ∈ primaryRules, Imitates isToken w a K k k input := by
    simp only [primaryRules, List.forall_mem_cons]
    exact ⟨hf.imitates_shared (by decide) input, hf.imitates_quoted input, hf.imitates_shared (by decide) input,
      hf.imitates_shared (by decide) input, hgroups input hinput K, nofun⟩
  exact imitates_fragment hf.settles hf.source.primary (by decide) hf.image.primary
    fun ds rest hchooses hds hrest => chooses_imitated hnone hone hchooses hds hrest

theorem exists_cons_of_not_clear {p : Char → Bool} (h : ¬ Clear p input) : ∃ c cs, input = c :: cs ∧ p c = true := by
  cases input with
  | nil => exact absurd (clear_nil p) h
  | cons c cs => exact ⟨c, cs, rfl, by simpa using h⟩

/-- White space is passed over alike. -/
theorem passes_space (hf : Follows w a) (hname : name ∈ sharedRules)
    (h : (Step.star (.rule name)).Passes w input ds rest started) :
    (Step.star (.rule name)).Passes a input ds rest started := h.transfer (hf.answers hname)

/-- A step leaves no more than it found. -/
theorem length_le (hf : Follows w a) {s : Step} (h : s.Passes w input ds rest started) : rest.length ≤ input.length :=
  h.length_le hf.leaves

/-- No mark of the attributed notation stands where something else begins. -/
theorem lead_none (hf : Follows w a) (hm : w.Ends "%Primary" input (some m)) :
    a.Ends "PrimaryPreDecoration" input none := by
  have hopens : ¬ Clear opensPrimary input := fun hclear => not_ends_some (hf.source.primary_none hclear) hm
  obtain ⟨c, cs, rfl, hc⟩ := exists_cons_of_not_clear hopens
  refine Target.ends_of_answers_none (Table.answers_rule_none hf.image.lead (rejected_oneChar fun d hd => ?_))
  cases hd
  exact not_mem_leadMarks hc

/-- An item is a primary with its marks. -/
theorem imitates_item (hf : Follows w a) (hgroups : GroupsFollow w a n) (hinput : input.length ≤ n) :
    Imitates isToken w a K "Item" "%Item" input := by
  refine imitates_fragment hf.settles hf.source.item (by decide) hf.image.item (ImitatesAll.chooses ?_)
  refine imitatesAll_cons_same (hf.answers (by decide)) fun _ mid _ hspace => ?_
  have hmid := (hf.length_le hspace).trans hinput
  refine imitatesAll_cons fun ds mid' _ hlead => ⟨fun _ _ _ hall hds _ => ?_, ?_⟩
  · obtain ⟨_, _, _, _, _, hprimary, -⟩ := passAll_cons hall
    obtain ⟨m, hm, -⟩ := exists_of_passes_one hprimary
    refine Imitates.optional (hf.imitates_lead (K := fun _ => True) mid) (fun hnone => ?_) hlead hds trivial
    rw [rest_of_passes_optional hnone hlead] at hm
    exact hf.lead_none hm
  · have hmid' := (hf.length_le hlead).trans hmid
    refine imitatesAll_cons fun ds _ _ hprimary => ⟨fun _ _ _ _ hds _ => ?_, ?_⟩
    · exact (hf.imitates_primary (K := fun _ => True) hgroups hmid').one hprimary hds trivial
    · exact imitatesAll_cons_same (hf.answers (by decide)) fun _ _ _ _ => imitatesAll_nil _

/-! ## Sequences -/

/-- Neither a further item nor a minus stands here, behind white space. -/
def Stops (a : Table) (rest : List Char) : Prop :=
  ∃ ds back started, (Step.star (.rule "RULE_WHITESPACE")).Passes a rest ds back started ∧
    Clear (fun c => opensItem c || c = '-') back

/-- What stands behind the rounds of a rule stands before them, unless the rule begins with it. -/
theorem clear_before {t : Table} {p : Char → Bool}
    (hp : ∀ c cs, p c = true → (Target.rule name).Answers t (c :: cs) none)
    (h : (Step.star (.rule name)).Passes t input ds rest started) (hrest : Clear p rest) : Clear p input := by
  by_contra hclear
  obtain ⟨c, cs, rfl, hc⟩ := exists_cons_of_not_clear hclear
  rw [rest_of_passes_star (Target.ends_of_answers_none (hp c cs hc)) h] at hrest
  exact hclear hrest

/-- Where an alternative stops, no item can be read. -/
theorem Stops.item_none (hf : Follows w a) (h : Stops a rest) : a.Ends "%Item" rest none := by
  obtain ⟨ds, back, started, hspace, hback⟩ := h
  exact Target.ends_of_answers_none (hf.image.item_none_behind hspace (hback.imp fun c hc => by simp [hc]))

theorem Stops.moreItems_none (hf : Follows w a) (h : Stops a rest) : a.Ends "%_Item_1" rest none := by
  have hitem := h.item_none hf
  obtain ⟨ds, back, started, hspace, hback⟩ := h
  have hminus : Clear (· = '-') rest := by
    refine clear_before (fun c cs hc => ?_) hspace (hback.imp fun c hc => by simp [of_decide_eq_true hc])
    rw [of_decide_eq_true hc]
    exact hf.image.blanks_none (clear_cons.2 (by decide))
  refine Target.ends_of_answers_none (Table.answers_rule_none hf.image.moreItems ?_)
  exact List.forall_mem_cons.2 ⟨hf.image.minus_none hminus, List.forall_mem_singleton.2
    (.inr ⟨_, _, .cons (passes_star_of_none (Target.answers_rule hitem)) (.nil _)⟩)⟩

/-- An item does not begin with a minus. -/
theorem not_minus (hf : Follows w a) (hm : w.Ends "Item" input (some m)) : Clear (· = '-') input := by
  by_contra hdash
  obtain ⟨c, cs, rfl, hc⟩ := exists_cons_of_not_clear hdash
  obtain rfl := of_decide_eq_true hc
  have hnone : (Target.rule (Style.itemRule .w3c)).Answers w ([] ++ '-' :: cs) none :=
    hf.source.item_none nofun (clear_cons.2 (by decide))
  exact not_ends_some hnone hm

/-- Items one after another, with nothing behind them that they could go on with. -/
theorem imitates_items (hf : Follows w a) (hgroups : GroupsFollow w a n) (hinput : input.length ≤ n) :
    ImitatesAll isToken w a (Stops a) [.star (.rule "Item")] [.star (.rule "%Item")] input := by
  refine imitatesAll_cons fun ds mid started hitems => ⟨fun _ rest _ hnil hds hrest => ?_, imitatesAll_nil mid⟩
  obtain ⟨-, rfl, -⟩ := passAll_nil hnil
  have hend := hrest.item_none hf
  rcases rounds_of_passes_star hitems with ⟨hrounds, rfl⟩ | ⟨-, rfl, rfl, rfl⟩
  · obtain ⟨ds', hrounds', halike⟩ := Imitates.rounds (K := fun _ => True)
      (fun mid hmid => hf.imitates_item hgroups (hmid.trans hinput)) (fun _ _ _ => trivial) hrounds hds trivial hend
    exact ⟨ds', .rounds rfl (.inl rfl) hrounds', halike⟩
  · exact ⟨[], passes_star_of_none (Target.answers_rule hend), .refl _⟩

/-- Another item is read behind white space, and if none follows the white space is left. -/
theorem imitates_moreItems (hf : Follows w a) (hgroups : GroupsFollow w a n) (hinput : input.length ≤ n) :
    Imitates isToken w a (Stops a) "%_Item_1" "%_Item_1" input := by
  refine imitates_fragment hf.settles hf.source.moreItems (by decide) hf.image.moreItems
    fun ds rest hchooses hds hrest => ?_
  have hminus : ImitatesAll isToken w a (Stops a) [.one (.rule "Minus"), .one (.rule "Item")]
      [.one (.rule "Minus"), .one (.rule "%Item")] input := by
    refine imitatesAll_cons_same (hf.answers (by decide)) fun _ mid _ hmid => ?_
    have hlength := (hf.length_le hmid).trans hinput
    exact imitatesAll_cons fun _ _ _ hitem =>
      ⟨fun _ _ _ _ hds _ => (hf.imitates_item (K := fun _ => True) hgroups hlength).one hitem hds trivial,
        imitatesAll_nil _⟩
  cases hchooses with
  | first hall =>
    obtain ⟨ds', hall', halike⟩ := hminus ds rest true hall hds hrest
    exact ⟨ds', .first hall', halike⟩
  | next _ hchooses =>
    have hall := passAll_of_chooses hchooses
    obtain ⟨ds', hall', halike⟩ := hf.imitates_items hgroups hinput ds rest true hall hds hrest
    obtain ⟨_, _, first, _, _, hitems, hnil, -, hstarted⟩ := passAll_cons hall
    obtain ⟨-, -, rfl⟩ := passAll_nil hnil
    obtain rfl : first = true := by simpa using hstarted.symm
    obtain ⟨m, hm⟩ := exists_of_passes_star hitems
    exact ⟨ds', .next (hf.image.minus_none (hf.not_minus hm)) (.first hall'), halike⟩

/-- A sequence is an item and more items. -/
theorem imitates_sequence (hf : Follows w a) (hgroups : GroupsFollow w a n) (hinput : input.length ≤ n) :
    Imitates isToken w a (Stops a) "SequenceOrDifference" "SequenceOrDifference" input := by
  refine imitates_node hf.settles hf.source.sequence (by decide) hf.image.sequence (ImitatesAll.chooses ?_)
  refine imitatesAll_cons fun _ mid _ hitem => ⟨fun _ _ _ _ hds _ => ?_, ?_⟩
  · exact (hf.imitates_item (K := fun _ => True) hgroups hinput).one hitem hds trivial
  have hmid := (hf.length_le hitem).trans hinput
  refine imitatesAll_cons_same (hf.answers (by decide)) fun _ mid' _ hspace => ?_
  have hmid' := (hf.length_le hspace).trans hmid
  refine imitatesAll_cons fun _ _ _ hmore => ⟨fun _ rest _ hnil hds hrest => ?_, imitatesAll_nil _⟩
  obtain ⟨-, rfl, -⟩ := passAll_nil hnil
  refine (hf.imitates_moreItems hgroups hmid').optional (fun hnone => ?_) hmore hds hrest
  rw [rest_of_passes_optional hnone hmore] at hrest
  exact hrest.moreItems_none hf

/-! ## White space -/

def isLineEnd (c : Char) : Bool := c = '\n' || c = '\r'

/-- White space between lines is passed over here, with no faults where these drafts have none. -/
def Spaces (a : Table) (ds : List Draft) (input rest : List Char) (started : Bool) : Prop :=
  ∃ ds', (Step.star (.rule "RULE_S")).Passes a input ds' rest started ∧ (Faultless ds → Faultless ds')

/-- White space that is there is taken. -/
theorem advances_iff (hf : Follows w a) (hname : name ∈ spaceRules) (input : List Char) (hit : Hit)
    (h : (Target.rule name).Answers a input (some hit)) : (hit.rest input).length < input.length := by
  have hshared : ∀ k ∈ spaceRules, k ∈ sharedRules := by decide
  obtain ⟨m, hm, rfl⟩ := Target.ends_of_answers_some h
  exact hf.advances name hname input m ((hf.shared_iff (hshared name hname)).1 hm)

/-- White space that is read in one piece. -/
theorem spaces_of_chooses (hf : Follows w a) {es : List Draft}
    (h : Chooses a [[.one (.rule "RULE_WHITESPACE"), .star (.rule "RULE_S")],
      [.one (.rule "RULE_EOL"), .star (.rule "RULE_S")]] input es rest)
    (hend : rest = [] ∨ (Target.rule "RULE_S").Answers a rest none) (hfaultless : Faultless ds → Faultless es) :
    Spaces a ds input rest true := by
  refine ⟨_, passes_star_once (Table.Ends.of_chooses hf.image.spacing h)
    (hend.imp_right Target.ends_of_answers_none), fun hds => ?_⟩
  rw [Match.additions, if_neg (by simp), faultless_node]
  exact hfaultless hds

theorem faultless_behind {es es' : List Draft} (h : Faultless es → Faultless es') :
    Faultless (ds ++ es) → Faultless (ds ++ es') := by
  rw [faultless_append, faultless_append]
  exact And.imp_right h

/-- A blank in front of white space makes longer white space. -/
theorem spaces_blank (hf : Follows w a) (hm : a.Ends "RULE_WHITESPACE" input (some m)) {es : List Draft}
    (h : Spaces a es m.rest rest started) : Spaces a (m.additions ++ es) input rest true := by
  obtain ⟨es', hpasses, hfaultless⟩ := h
  have hend := end_of_passes_star hpasses (hf.advances_iff (by decide))
  have hall := PassAll.cons (passes_rule hm) (.cons hpasses (.nil rest))
  rw [List.append_nil, Bool.true_or] at hall
  exact hf.spaces_of_chooses (.first hall) hend (faultless_behind hfaultless)

/-- A line end begins with a character for line ends. -/
theorem isLineEnd_of_ends {t : Table} (hl : Lexical t) (hm : t.Ends "RULE_EOL" input (some m)) :
    ∃ c cs, input = c :: cs ∧ isLineEnd c = true :=
  exists_cons_of_not_clear fun hclear => not_ends_some (hl.lineEnd_none hclear) hm

theorem not_opensBlank_of_lineEnd (c : Char) (hc : isLineEnd c = true) : opensBlank c = false := by
  simp only [isLineEnd, Bool.or_eq_true, decide_eq_true_eq] at hc
  rcases hc with rfl | rfl
  · decide
  · decide

theorem spaces_lineEnd (hf : Follows w a) (hm : a.Ends "RULE_EOL" input (some m)) {es : List Draft}
    (h : Spaces a es m.rest rest started) : Spaces a (m.additions ++ es) input rest true := by
  obtain ⟨es', hpasses, hfaultless⟩ := h
  have hend := end_of_passes_star hpasses (hf.advances_iff (by decide))
  have hall := PassAll.cons (passes_rule hm) (.cons hpasses (.nil rest))
  rw [List.append_nil, Bool.true_or] at hall
  have hblank : (Target.rule "RULE_WHITESPACE").Answers a input none := by
    obtain ⟨c, cs, rfl, hc⟩ := isLineEnd_of_ends hf.image.toLexical hm
    exact hf.image.blanks_none (clear_cons.2 (not_opensBlank_of_lineEnd c hc))
  exact hf.spaces_of_chooses (.next (rejected_of_none hblank) (.first hall)) hend (faultless_behind hfaultless)

/-- White space before white space, in rounds. -/
theorem spaces_rounds {mid : List Char} {es : List Draft}
    (hone : ∀ {input m es started}, a.Ends name input (some m) → Spaces a es m.rest rest started →
      Spaces a (m.additions ++ es) input rest true)
    (hrounds : (Target.rule name).Rounds a input ds mid) (h : Spaces a es mid rest started) :
    Spaces a (ds ++ es) input rest true := by
  induction hrounds with
  | last hhit _ =>
    obtain ⟨m, hm, rfl⟩ := Target.ends_of_answers_some hhit
    exact hone hm h
  | more hhit _ _ _ ih =>
    obtain ⟨m, hm, rfl⟩ := Target.ends_of_answers_some hhit
    have hmore := hone hm (ih h)
    rw [← List.append_assoc] at hmore
    exact hmore

/-- Blanks in front of white space make longer white space. -/
theorem spaces_blanks (hf : Follows w a) {mid : List Char} {es : List Draft} {more : Bool}
    (hspace : (Step.star (.rule "RULE_WHITESPACE")).Passes a input ds mid started) (h : Spaces a es mid rest more) :
    Spaces a (ds ++ es) input rest (started || more) := by
  rcases rounds_of_passes_star hspace with ⟨hrounds, rfl⟩ | ⟨-, rfl, rfl, rfl⟩
  · exact spaces_rounds (fun hm h => hf.spaces_blank hm h) hrounds h
  · exact h

/-- There may be no white space at all. -/
theorem spaces_here (hf : Follows w a) (hnone : a.Ends "RULE_WHITESPACE" input none) (hinput : Clear isLineEnd input) :
    Spaces a [] input input false := by
  refine ⟨[], passes_star_of_none (Table.answers_rule_none hf.image.spacing ?_), id⟩
  exact List.forall_mem_cons.2 ⟨rejected_of_none (Target.answers_rule hnone),
    List.forall_mem_singleton.2 (rejected_of_none (hf.image.lineEnd_none hinput))⟩

/-- White space within a line is white space between lines, where no line ends behind it. -/
theorem imitates_spacing (hf : Follows w a)
    (h : (Step.star (.rule "RULE_WHITESPACE")).Passes w input ds rest started) (hrest : Clear isLineEnd rest) :
    ∃ ds', (Step.star (.rule "RULE_S")).Passes a input ds' rest started ∧ Alike isToken ds ds' := by
  have hspace := hf.passes_space (by decide) h
  have hnone : a.Ends "RULE_WHITESPACE" rest none := by
    rcases end_of_passes_star hspace (hf.advances_iff (by decide)) with rfl | hnone
    · exact Target.ends_of_answers_none (hf.image.blanks_none (clear_nil _))
    · exact Target.ends_of_answers_none hnone
  have hspaces := hf.spaces_blanks hspace (hf.spaces_here hnone hrest)
  rw [List.append_nil, Bool.or_false] at hspaces
  obtain ⟨ds', hpasses, hfaultless⟩ := hspaces
  refine ⟨ds', hpasses, .of_hidden hfaultless ?_ ?_⟩
  · exact hidden_of_passes_star hspace fun _ _ hm => hm.hidden hf.settles' hf.image.whitespace (by decide) (by decide)
  · exact hidden_of_passes_star hpasses fun _ _ hm => hm.hidden hf.settles' hf.image.spacing (by decide) (by decide)

/-! ## Alternatives -/

/-- No further alternative stands here either, behind white space between lines. -/
structure Ceases (a : Table) (rest : List Char) : Prop where
  stops : Stops a rest
  further : ∃ ds back started, (Step.star (.rule "RULE_S")).Passes a rest ds back started ∧ Clear (· = '|') back

/-- Where a literal has been taken, the input begins with its first character. -/
theorem clear_of_literal {t : Table} {p : Char → Bool} {c : Char} {cs : List Char}
    (h : (Step.one (.literal (c :: cs))).Passes t input ds rest started) (hc : p c = false) : Clear p input := by
  obtain ⟨hit, hhit, -⟩ := hit_of_passes_one h
  obtain ⟨rest, -, rfl⟩ := Target.text_of_answers_literal (by simp) hhit
  exact clear_cons.2 hc

/-- No line end stands where an alternative does. -/
theorem not_lineEnd_of_sequence (hf : Follows w a) (hm : w.Ends "SequenceOrDifference" input (some m)) :
    Clear isLineEnd input := by
  by_contra hend
  obtain ⟨c, cs, rfl, hc⟩ := exists_cons_of_not_clear hend
  have hopens : Clear (fun c => opensItem c || opensBlank c) (c :: cs) := by
    refine clear_cons.2 ?_
    simp only [isLineEnd, Bool.or_eq_true, decide_eq_true_eq] at hc
    rcases hc with rfl | rfl
    · decide
    · decide
  have hnone : (Target.rule (Style.itemRule .w3c)).Answers w ([] ++ c :: cs) none := hf.source.item_none nofun hopens
  refine not_ends_some (Table.answers_rule_none hf.source.sequence ?_) hm
  exact List.forall_mem_singleton.2 (rejected_of_none hnone)

/-- An alternative stops where white space leads to a character that opens no item. -/
theorem stops_of_passes (hf : Follows w a) {mid : List Char}
    (hspace : (Step.star (.rule "RULE_WHITESPACE")).Passes w input ds mid started)
    (hmid : Clear (fun c => opensItem c || c = '-') mid) : Stops a input :=
  ⟨ds, mid, started, hf.passes_space (by decide) hspace, hmid⟩

/-- It stops before a bar. -/
theorem stops_of_further (hf : Follows w a) (hm : w.Ends "%_Choice_1" input (some m)) : Stops a input := by
  obtain ⟨ds, hchooses, -⟩ := hm.chooses hf.settles hf.source.further (by decide)
  obtain ⟨_, mid, _, _, _, hspace, hall, -⟩ := passAll_cons (passAll_of_chooses hchooses)
  obtain ⟨_, _, _, _, _, hbar, -⟩ := passAll_cons hall
  exact hf.stops_of_passes hspace (clear_of_literal hbar (by decide))

/-- Where a choice ceases, no further alternative can be read. -/
theorem Ceases.further_none (hf : Follows w a) (h : Ceases a rest) : a.Ends "%_Choice_1" rest none := by
  obtain ⟨ds, back, started, hspace, hback⟩ := h.further
  refine Target.ends_of_answers_none (Table.answers_rule_none hf.image.further (List.forall_mem_singleton.2 ?_))
  refine .inl (.later hspace (.here (fails_one ?_)))
  exact Target.answers_literal_none fun d hd => of_decide_eq_false (hback d hd)

/-- A further alternative stands behind a bar. -/
theorem imitates_further (hf : Follows w a) (hgroups : GroupsFollow w a n) (hinput : input.length ≤ n) :
    Imitates isToken w a (Stops a) "%_Choice_1" "%_Choice_1" input := by
  refine imitates_fragment hf.settles hf.source.further (by decide) hf.image.further (ImitatesAll.chooses ?_)
  refine imitatesAll_cons fun _ mid _ hspace => ⟨fun _ _ _ hall _ _ => ?_, ?_⟩
  · obtain ⟨_, _, _, _, _, hbar, -⟩ := passAll_cons hall
    exact hf.imitates_spacing hspace (clear_of_literal hbar (by decide))
  have hmid := (hf.length_le hspace).trans hinput
  refine imitatesAll_cons_same (fun _ _ => Target.answers_transfer nofun) fun _ mid' _ hbar => ?_
  have hmid' := (hf.length_le hbar).trans hmid
  refine imitatesAll_cons fun _ mid _ hspace => ⟨fun _ _ _ hall _ _ => ?_, ?_⟩
  · obtain ⟨_, _, _, _, _, hsequence, -⟩ := passAll_cons hall
    obtain ⟨m, hm, -⟩ := exists_of_passes_one hsequence
    exact hf.imitates_spacing hspace (hf.not_lineEnd_of_sequence hm)
  have hlast := (hf.length_le hspace).trans hmid'
  refine imitatesAll_cons fun _ _ _ hsequence => ⟨fun _ _ _ hnil hds hrest => ?_, imitatesAll_nil _⟩
  obtain ⟨-, rfl, -⟩ := passAll_nil hnil
  exact (hf.imitates_sequence hgroups hlast).one hsequence hds hrest

/-- A choice is an alternative and further ones. -/
theorem imitates_choice (hf : Follows w a) (hgroups : GroupsFollow w a n) (hinput : input.length ≤ n) :
    Imitates isToken w a (Ceases a) "Choice" "%Choice" input := by
  refine imitates_fragment hf.settles hf.source.choice (by decide) hf.image.choice (ImitatesAll.chooses ?_)
  refine imitatesAll_cons fun _ mid _ hsequence => ⟨fun _ rest _ hall hds hrest => ?_, ?_⟩
  · refine (hf.imitates_sequence hgroups hinput).one hsequence hds ?_
    obtain ⟨_, _, started, _, _, hmore, hnil, -⟩ := passAll_cons hall
    obtain ⟨-, rfl, -⟩ := passAll_nil hnil
    rcases rounds_of_passes_star hmore with ⟨-, rfl⟩ | ⟨-, -, rfl, -⟩
    · obtain ⟨m, hm⟩ := exists_of_passes_star hmore
      exact hf.stops_of_further hm
    · exact hrest.stops
  · have hmid := (hf.length_le hsequence).trans hinput
    refine imitatesAll_cons fun _ _ _ hmore => ⟨fun _ rest _ hnil hds hrest => ?_, imitatesAll_nil _⟩
    obtain ⟨-, rfl, -⟩ := passAll_nil hnil
    have hend := hrest.further_none hf
    rcases rounds_of_passes_star hmore with ⟨hrounds, rfl⟩ | ⟨-, rfl, rfl, rfl⟩
    · obtain ⟨ds', hrounds', halike⟩ := Imitates.rounds
        (fun mid' hmid' => hf.imitates_further hgroups (hmid'.trans hmid))
        (fun _ _ hm => hf.stops_of_further hm) hrounds hds hrest.stops hend
      exact ⟨ds', .rounds rfl (.inl rfl) hrounds', halike⟩
    · exact ⟨[], passes_star_of_none (Target.answers_rule hend), .refl _⟩

/-- No line end stands where alternatives do. -/
theorem not_lineEnd_of_choice (hf : Follows w a) (hm : w.Ends "Choice" input (some m)) : Clear isLineEnd input := by
  obtain ⟨ds, hchooses, -⟩ := hm.chooses hf.settles hf.source.choice (by decide)
  obtain ⟨_, _, _, _, _, hsequence, -⟩ := passAll_cons (passAll_of_chooses hchooses)
  obtain ⟨m, hm, -⟩ := exists_of_passes_one hsequence
  exact hf.not_lineEnd_of_sequence hm

/-- Alternatives in parentheses, where those that are in them are imitated. -/
theorem imitates_group (hf : Follows w a)
    (hinner : ∀ mid : List Char, mid.length < input.length → Imitates isToken w a (Ceases a) "Choice" "%Choice" mid) :
    Imitates isToken w a K "SubItem" "SubItem" input := by
  refine imitates_node hf.settles hf.source.group (by decide) hf.image.group (ImitatesAll.chooses ?_)
  refine imitatesAll_cons_same (fun _ _ => Target.answers_transfer nofun) fun _ mid _ hopen => ?_
  have hmid : mid.length < input.length := by
    obtain ⟨hit, hhit, -, rfl, -⟩ := hit_of_passes_one hopen
    obtain ⟨rest, rfl, rfl⟩ := Target.text_of_answers_literal (by simp) hhit
    exact Nat.lt_succ_self _
  refine imitatesAll_cons fun _ mid' _ hspace => ⟨fun _ _ _ hall _ _ => ?_, ?_⟩
  · obtain ⟨_, _, _, _, _, hchoice, -⟩ := passAll_cons hall
    obtain ⟨m, hm, -⟩ := exists_of_passes_one hchoice
    exact hf.imitates_spacing hspace (hf.not_lineEnd_of_choice hm)
  have hmid' := Nat.lt_of_le_of_lt (hf.length_le hspace) hmid
  refine imitatesAll_cons fun _ _ _ hchoice => ⟨fun _ _ _ hall hds _ => ?_, ?_⟩
  · obtain ⟨_, _, _, _, _, hspace, hall, -⟩ := passAll_cons hall
    obtain ⟨_, _, _, _, _, hclose, -⟩ := passAll_cons hall
    obtain ⟨ds', hspaces, -⟩ := hf.imitates_spacing hspace (clear_of_literal hclose (by decide))
    exact (hinner mid' hmid').one hchoice hds
      ⟨hf.stops_of_passes hspace (clear_of_literal hclose (by decide)), _, _, _, hspaces,
        clear_of_literal hclose (by decide)⟩
  refine imitatesAll_cons fun _ _ _ hspace => ⟨fun _ _ _ hall _ _ => ?_, ?_⟩
  · obtain ⟨_, _, _, _, _, hclose, -⟩ := passAll_cons hall
    exact hf.imitates_spacing hspace (clear_of_literal hclose (by decide))
  exact imitatesAll_cons_same (fun _ _ => Target.answers_transfer nofun) fun _ _ _ _ => imitatesAll_nil _

/-- Alternatives are imitated, however groups are nested in them. The induction is on the input left. -/
theorem imitates_choices (hf : Follows w a) (input : List Char) :
    Imitates isToken w a (Ceases a) "Choice" "%Choice" input := by
  induction hlength : input.length using Nat.strongRecOn generalizing input with
  | ind n ih =>
    refine hf.imitates_choice (fun mid hmid K => hf.imitates_group fun mid' hmid' => ?_) hlength.le
    exact ih _ (Nat.lt_of_lt_of_le hmid' hmid) mid' rfl

/-! ## Lines -/

/-- Line ends, or the end of the input. -/
theorem rounds_of_endOfProduction {t : Table} (hl : Lexical t) (hs : t.Settles)
    (hm : t.Ends "%EndOfProduction" input (some m)) :
    (∃ ds, (Target.rule "RULE_EOL").Rounds t input ds m.rest) ∨ input = [] ∧ m.rest = [] := by
  obtain ⟨ds, hchooses, -⟩ := hm.chooses hs hl.endOfProduction (by decide)
  cases hchooses with
  | first hall =>
    obtain ⟨_, _, _, _, _, hplus, hnil, -⟩ := passAll_cons hall
    obtain ⟨-, hrest, -⟩ := passAll_nil hnil
    rw [hrest]
    exact .inl ⟨_, rounds_of_passes_plus hplus⟩
  | next _ hchooses =>
    obtain ⟨_, _, _, _, _, hone, hnil, -⟩ := passAll_cons (passAll_of_chooses hchooses)
    obtain ⟨-, hrest, -⟩ := passAll_nil hnil
    obtain ⟨hit, hhit, -, rfl, -⟩ := hit_of_passes_one hone
    obtain ⟨hinput, hback⟩ := Target.nil_of_answers_endOfInput hhit
    exact .inr ⟨hinput, hrest.trans hback⟩

/-- A production ends at a line end. -/
theorem clear_of_endOfProduction {t : Table} (hl : Lexical t) (hs : t.Settles)
    (hm : t.Ends "%EndOfProduction" input (some m)) {p : Char → Bool} (hp : ∀ c, isLineEnd c = true → p c = false) :
    Clear p input := by
  rcases rounds_of_endOfProduction hl hs hm with ⟨ds, hrounds⟩ | ⟨rfl, -⟩
  · obtain ⟨hit, hhit⟩ := hrounds.first
    obtain ⟨m, hm, -⟩ := Target.ends_of_answers_some hhit
    obtain ⟨c, cs, rfl, hc⟩ := isLineEnd_of_ends hl hm
    exact clear_cons.2 (hp c hc)
  · exact clear_nil p

/-- What ends a line is white space between lines. -/
theorem spaces_endOfProduction (hf : Follows w a) (hm : a.Ends "%EndOfProduction" input (some m)) {es : List Draft}
    (h : Spaces a es m.rest rest started) : ∃ ds more, Spaces a ds input rest more := by
  rcases rounds_of_endOfProduction hf.image.toLexical hf.settles' hm with ⟨ds, hrounds⟩ | ⟨rfl, hback⟩
  · exact ⟨_, _, spaces_rounds (fun hm h => hf.spaces_lineEnd hm h) hrounds h⟩
  · rw [hback] at h
    exact ⟨_, _, h⟩

/-- Alternatives end where a line does. -/
theorem ceases_of_lineEnd (hf : Follows w a) {mid last : List Char} {es : List Draft} {more : Bool}
    (hspace : (Step.star (.rule "RULE_WHITESPACE")).Passes w input ds mid started)
    (hm : w.Ends "%EndOfProduction" mid (some m)) (hlast : (Step.star (.rule "RULE_S")).Passes w m.rest es last more)
    (hclear : Clear (· = '|') last) : Ceases a input where
  stops := by
    refine hf.stops_of_passes hspace (clear_of_endOfProduction hf.source.toLexical hf.settles hm fun c hc => ?_)
    simp only [isLineEnd, Bool.or_eq_true, decide_eq_true_eq] at hc
    rcases hc with rfl | rfl
    · decide
    · decide
  further := by
    have hbehind : Spaces a es m.rest last more := ⟨es, hf.passes_space (by decide) hlast, id⟩
    obtain ⟨_, _, hend⟩ := hf.spaces_endOfProduction (hf.shared _ (by decide) _ _ hm) hbehind
    obtain ⟨ds', hpasses, -⟩ := hf.spaces_blanks (hf.passes_space (by decide) hspace) hend
    exact ⟨ds', last, _, hpasses, hclear⟩

/-- A production is a name, the sign and a choice, up to the end of its line. The other grammar may have attributes
there, and reads none. -/
theorem imitates_production (hf : Follows w a) (input : List Char) :
    Imitates isToken w a (Clear (· = '|')) "Production" "Production" input := by
  refine imitates_node hf.settles hf.source.production (by decide) hf.image.production (ImitatesAll.chooses ?_)
  refine imitatesAll_cons_same (hf.answers (by decide)) fun _ _ _ _ => ?_
  refine imitatesAll_cons_same (hf.answers (by decide)) fun _ _ _ _ => ?_
  refine imitatesAll_cons_same (fun _ _ => Target.answers_transfer nofun) fun _ _ _ _ => ?_
  refine imitatesAll_cons_same (hf.answers (by decide)) fun _ mid _ _ => ?_
  refine imitatesAll_cons fun _ _ _ hchoice => ⟨fun _ _ _ hall hds hrest => ?_, ?_⟩
  · obtain ⟨_, _, _, _, _, hspace, hall, -⟩ := passAll_cons hall
    obtain ⟨_, _, _, _, _, hend, hall, -⟩ := passAll_cons hall
    obtain ⟨_, _, _, _, _, hlast, hnil, -⟩ := passAll_cons hall
    obtain ⟨-, rfl, -⟩ := passAll_nil hnil
    obtain ⟨m, hm, rfl⟩ := exists_of_passes_one hend
    exact (hf.imitates_choices mid).one hchoice hds (hf.ceases_of_lineEnd hspace hm hlast hrest)
  refine imitatesAll_cons_same (hf.answers (by decide)) fun _ _ _ _ => imitatesAll_skip (fun _ _ _ hall => ?_) ?_
  · obtain ⟨_, _, _, _, _, hend, -⟩ := passAll_cons hall
    obtain ⟨m, hm, -⟩ := exists_of_passes_one hend
    refine passes_optional_of_none (hf.image.attributes_none ?_)
    refine clear_of_endOfProduction hf.source.toLexical hf.settles hm fun c hc => ?_
    simp only [isLineEnd, Bool.or_eq_true, decide_eq_true_eq] at hc
    rcases hc with rfl | rfl
    · decide
    · decide
  refine imitatesAll_cons_same (hf.answers (by decide)) fun _ _ _ _ => ?_
  exact imitatesAll_cons_same (hf.answers (by decide)) fun _ _ _ _ => imitatesAll_nil _

/-- A line is a production, or white space. -/
theorem imitates_line (hf : Follows w a) (input : List Char) :
    Imitates isToken w a (Clear (· = '|')) "%Atomic" "%Atomic" input := by
  refine imitates_fragment hf.settles hf.source.line (by decide) hf.image.line (ImitatesAll.chooses ?_)
  refine imitatesAll_cons fun _ mid _ hproduction => ⟨fun _ _ _ hall hds hrest => ?_, ?_⟩
  · obtain ⟨_, _, _, _, _, hspace, hnil, -⟩ := passAll_cons hall
    obtain ⟨-, rfl, -⟩ := passAll_nil hnil
    refine (hf.imitates_production input).one hproduction hds (clear_before (fun c cs hc => ?_) hspace hrest)
    rw [of_decide_eq_true hc]
    exact hf.source.spacing_none (clear_cons.2 (by decide))
  exact imitatesAll_cons_same (hf.answers (by decide)) fun _ _ _ _ => imitatesAll_nil _

/-- Lines begin with a letter. -/
theorem clear_of_line (hf : Follows w a) (hm : w.Ends "%Atomic" input (some m)) {p : Char → Bool}
    (hp : ∀ c, Text.isAsciiLetter c = true → p c = false) : Clear p input := by
  have hletter : ¬ Clear Text.isAsciiLetter input := by
    intro hclear
    refine not_ends_some (Table.answers_rule_none hf.source.line ?_) hm
    refine List.forall_mem_singleton.2 (rejected_of_none (Table.answers_rule_none hf.source.production ?_))
    exact List.forall_mem_singleton.2 (rejected_of_none (hf.source.name_none hclear))
  obtain ⟨c, cs, rfl, hc⟩ := exists_cons_of_not_clear hletter
  exact clear_cons.2 (hp c hc)

/-- Nothing but lines stands here. -/
theorem clear_of_lines (hf : Follows w a)
    (hall : PassAll w [.star (.rule "%Atomic"), .one .endOfInput] input ds rest started) {p : Char → Bool}
    (hp : ∀ c, Text.isAsciiLetter c = true → p c = false) : Clear p input := by
  obtain ⟨_, _, _, _, _, hlines, hlast, -⟩ := passAll_cons hall
  rcases rounds_of_passes_star hlines with ⟨-, rfl⟩ | ⟨-, -, rfl, -⟩
  · obtain ⟨m, hm⟩ := exists_of_passes_star hlines
    exact hf.clear_of_line hm hp
  · obtain ⟨_, _, _, _, _, hend, -⟩ := passAll_cons hlast
    obtain ⟨hit, hhit, -⟩ := hit_of_passes_one hend
    rw [(Target.nil_of_answers_endOfInput hhit).1]
    exact clear_nil p

/-- **The grammars of the W3C notation are grammars of the attributed notation.** -/
theorem imitates_grammar (hf : Follows w a) (input : List Char) :
    Imitates isToken w a (fun _ => True) "Grammar" "Grammar" input := by
  refine imitates_node hf.settles hf.source.grammar (by decide) hf.image.grammar (ImitatesAll.chooses ?_)
  refine imitatesAll_cons_same (hf.answers (by decide)) fun _ mid _ _ => ?_
  have hother : ∀ d : Char, Text.isAsciiLetter d = false →
      ∀ c, Text.isAsciiLetter c = true → decide (c = d) = false := by
    intro d hd c hc
    refine decide_eq_false ?_
    rintro rfl
    rw [hc] at hd
    cases hd
  refine imitatesAll_skip (fun _ _ _ hall => ?_) (imitatesAll_skip (fun _ _ _ hall => ?_) ?_)
  · exact passes_optional_of_none (hf.image.attributes_none (hf.clear_of_lines hall (hother _ (by decide))))
  · refine passes_star_of_none (hf.image.spacing_none (hf.clear_of_lines hall fun c hc => ?_))
    exact not_opensSpacing (by simp [opensItem, opensPrimary, hc])
  refine imitatesAll_cons fun _ _ _ hlines => ⟨fun _ _ _ hall hds _ => ?_, ?_⟩
  · obtain ⟨_, _, _, _, _, hend, -⟩ := passAll_cons hall
    obtain ⟨hit, hhit, -⟩ := hit_of_passes_one hend
    obtain rfl := (Target.nil_of_answers_endOfInput hhit).1
    have hnone : a.Ends "%Atomic" [] none := by
      refine Target.ends_of_answers_none (Table.answers_rule_none hf.image.line ?_)
      refine List.forall_mem_singleton.2 (rejected_of_none (Table.answers_rule_none hf.image.production ?_))
      exact List.forall_mem_singleton.2 (rejected_of_none (hf.image.name_none (clear_nil _)))
    rcases rounds_of_passes_star hlines with ⟨hrounds, rfl⟩ | ⟨-, rfl, rfl, rfl⟩
    · obtain ⟨ds', hrounds', halike⟩ := Imitates.rounds (fun mid _ => hf.imitates_line mid)
        (fun _ _ hm => hf.clear_of_line hm (hother _ (by decide))) hrounds hds (clear_nil _) hnone
      exact ⟨ds', .rounds rfl (.inl rfl) hrounds', halike⟩
    · exact ⟨[], passes_star_of_none (Target.answers_rule hnone), .refl _⟩
  · exact imitatesAll_cons_same (fun _ _ => Target.answers_transfer (by rintro name ⟨⟩))
      fun _ _ _ _ => imitatesAll_nil _

/-- What the W3C notation reads, the attributed notation reads as the same lines. -/
theorem readGrammarTree (hf : Follows w a) (hstart : w.start?.map (·.name) = some "Grammar")
    (hstart' : a.start?.map (·.name) = some "Grammar") {source : String} {root : Node}
    (h : Grammarian.readGrammarTree (.ok ⟨w, {}⟩) source = .ok root) :
    ∃ root', Grammarian.readGrammarTree (.ok ⟨a, {}⟩) source = .ok root' ∧
      root'.outline isToken = root.outline isToken := by
  obtain ⟨p, tree, hp, hparse, herrors, rfl⟩ := readGrammarTree_eq_ok_iff.1 h
  obtain rfl := Except.ok.inj hp
  obtain ⟨tree', hparse', herrors', houtline⟩ := Parser.parse_of_imitates (hf.imitates_grammar source.toList)
    hf.settles hf.settles' hstart hstart' hf.source.grammar hf.image.grammar (by decide) (by decide) (by decide)
    hparse herrors
  exact ⟨tree'.root, readGrammarTree_eq_ok_iff.2 ⟨_, tree', rfl, hparse', herrors', rfl⟩, houtline⟩

end Follows

end Grammarian.Notation
