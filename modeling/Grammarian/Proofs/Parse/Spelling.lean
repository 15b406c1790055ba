import Grammarian.Parse.Parser
import Grammarian.Proofs.Parse.Reading
import Grammarian.Proofs.Tree.Outline

/-!
# Reading texts

What a rule, a target or some steps read: a text, what is left behind it, and the outlines of the nodes that
come of it. Texts that are read one after another are read together, so the reading of a long text is put
together from those of its parts.
-/

namespace Grammarian

/-- What is added and left, told for texts: `text` is read with `rest` behind it. -/
def Told (isToken : String → Bool) (reads : List Char → List Draft → List Char → Prop)
    (text rest : List Char) (ns : List Node) : Prop :=
  ∃ ds, reads (text ++ rest) ds rest ∧ Draft.Shows isToken (text ++ rest) ds ns

/-- A target takes the front of the input. -/
def Target.Takes (t : Table) (target : Target) (input : List Char) (ds : List Draft) (rest : List Char) :
    Prop :=
  ∃ hit, target.Answers t input (some hit) ∧ hit.adds = ds ∧ hit.rest input = rest

/-- A rule takes the front of the input. -/
def Table.Takes (t : Table) (name : String) (input : List Char) (ds : List Draft) (rest : List Char) :
    Prop :=
  ∃ m, t.Ends name input (some m) ∧ m.additions = ds ∧ m.rest = rest

section Reading

variable {t : Table} {isToken : String → Bool} {name : String} {target : Target} {s : Step}
  {steps : List Step} {text text' rest : List Char} {ns ms : List Node} {started started' : Bool}

namespace Table

/-- The rule reads `text` when `rest` stands behind it. -/
def Reads (t : Table) (isToken : String → Bool) (name : String) : List Char → List Char → List Node → Prop :=
  Told isToken (t.Takes name)

end Table

namespace Target

/-- The target reads `text` when `rest` stands behind it. -/
def Reads (t : Table) (isToken : String → Bool) (target : Target) :
    List Char → List Char → List Node → Prop :=
  Told isToken (target.Takes t)

def ReadsRounds (t : Table) (isToken : String → Bool) (target : Target) :
    List Char → List Char → List Node → Prop :=
  Told isToken (target.Rounds t)

theorem reads_rule (h : t.Reads isToken name text rest ns) :
    (Target.rule name).Reads t isToken text rest ns := by
  obtain ⟨ds, ⟨m, hm, hadds, hrest⟩, hshows⟩ := h
  exact ⟨ds, ⟨.node m, answers_rule hm, hadds, hrest⟩, hshows⟩

/-- A literal reads its text, whatever follows. -/
theorem reads_literal (hne : text ≠ []) (rest : List Char) :
    (Target.literal text).Reads t isToken text rest [] :=
  ⟨[], ⟨.text rest, answers_literal hne rest, rfl, rfl⟩, Draft.shows_nil _⟩

/-- A pattern reads what it matches, with what follows taken into account. -/
theorem reads_pattern {p : Pattern} (h : p.match? (text ++ rest) = some rest) :
    (Target.pattern p).Reads t isToken text rest [] :=
  ⟨[], ⟨.text rest, answers_pattern h, rfl, rfl⟩, Draft.shows_nil _⟩

theorem reads_endOfInput : Target.endOfInput.Reads t isToken [] [] [] := by
  refine ⟨_, ⟨_, answers_endOfInput, rfl, rfl⟩, ?_⟩
  exact (Draft.shows_nil []).left_out (by decide) 0 0

/-- One round, behind which there is nothing or no further target. -/
theorem readsRounds_last (h : target.Reads t isToken text rest ns)
    (hend : rest = [] ∨ target.Answers t rest none) : target.ReadsRounds t isToken text rest ns := by
  obtain ⟨ds, ⟨hit, hanswer, rfl, hrest⟩, hshows⟩ := h
  refine ⟨_, ?_, hshows⟩
  have hround := Target.Rounds.last hanswer (by
    rw [hrest]
    exact hend.imp_right Or.inr)
  rwa [hrest] at hround

/-- A round goes on with further ones as long as each consumes something and input is left. -/
theorem readsRounds_more (h : target.Reads t isToken text (text' ++ rest) ns) (hne : text ≠ [])
    (hne' : text' ++ rest ≠ []) (hmore : target.ReadsRounds t isToken text' rest ms) :
    target.ReadsRounds t isToken (text ++ text') rest (ns ++ ms) := by
  obtain ⟨ds, ⟨hit, hanswer, rfl, hrest⟩, hshows⟩ := h
  obtain ⟨es, hrounds, hshows'⟩ := hmore
  have hlt : (text' ++ rest).length < (text ++ (text' ++ rest)).length := by
    have hpos := List.length_pos_iff.2 hne
    simp only [List.length_append]
    omega
  rw [ReadsRounds, Told, List.append_assoc]
  refine ⟨hit.adds ++ es, ?_, hshows.append (List.suffix_append _ _) hshows'⟩
  refine Target.Rounds.more hanswer ?_ ?_ ?_
  · rw [hrest]
    exact hne'
  · rw [hrest]
    exact hlt
  · rw [hrest]
    exact hrounds

/-- Pieces that are read one after another are read in rounds. -/
theorem readsRounds_flatMap {α : Type} {spell : α → List Char} {nodes : α → List Node} {xs : List α}
    (hne : xs ≠ []) (hpos : ∀ x ∈ xs, spell x ≠ [])
    (h : ∀ x back, x :: back <:+ xs →
      target.Reads t isToken (spell x) (back.flatMap spell ++ rest) (nodes x))
    (hend : rest = [] ∨ target.Answers t rest none) :
    target.ReadsRounds t isToken (xs.flatMap spell) rest (xs.flatMap nodes) := by
  induction xs with
  | nil => exact absurd rfl hne
  | cons x xs ih =>
    rw [List.forall_mem_cons] at hpos
    have hfirst := h x xs List.suffix_rfl
    rw [List.flatMap_cons, List.flatMap_cons]
    cases xs with
    | nil =>
      rw [List.flatMap_nil, List.flatMap_nil, List.append_nil, List.append_nil]
      exact readsRounds_last hfirst hend
    | cons y ys =>
      have hmore := ih (List.cons_ne_nil y ys) hpos.2 fun z back hback =>
        h z back (hback.trans (List.suffix_cons x (y :: ys)))
      refine readsRounds_more hfirst hpos.1 ?_ hmore
      have hy : spell y ≠ [] := hpos.2 y List.mem_cons_self
      simp [hy]

end Target

namespace Step

/-- The step reads `text` when `rest` stands behind it. -/
def Reads (t : Table) (isToken : String → Bool) (s : Step) : List Char → List Char → List Node → Prop :=
  Told isToken fun input ds rest => s.Passes t input ds rest true

/-- The step reads `text`, or passes over an empty one. -/
def Skims (t : Table) (isToken : String → Bool) (s : Step) : List Char → List Char → List Node → Prop :=
  Told isToken fun input ds rest => ∃ started, s.Passes t input ds rest started

/-- The steps read `text`, at least one of them. -/
def ReadAll (t : Table) (isToken : String → Bool) (steps : List Step) :
    List Char → List Char → List Node → Prop :=
  Told isToken fun input ds rest => PassAll t steps input ds rest true

def SkimAll (t : Table) (isToken : String → Bool) (steps : List Step) :
    List Char → List Char → List Node → Prop :=
  Told isToken fun input ds rest => ∃ started, PassAll t steps input ds rest started

/-- What is read can be skimmed. -/
theorem Reads.skims (h : s.Reads t isToken text rest ns) : s.Skims t isToken text rest ns := by
  obtain ⟨ds, hpasses, hshows⟩ := h
  exact ⟨ds, ⟨true, hpasses⟩, hshows⟩

theorem ReadAll.skimAll (h : ReadAll t isToken steps text rest ns) :
    SkimAll t isToken steps text rest ns := by
  obtain ⟨ds, hpasses, hshows⟩ := h
  exact ⟨ds, ⟨true, hpasses⟩, hshows⟩

theorem reads_one (h : target.Reads t isToken text rest ns) : (one target).Reads t isToken text rest ns := by
  obtain ⟨ds, ⟨hit, hanswer, rfl, hrest⟩, hshows⟩ := h
  refine ⟨_, ?_, hshows⟩
  have hpasses := Passes.once (s := one target) rfl (Or.inl rfl) hanswer
  rwa [hrest] at hpasses

theorem reads_optional (h : target.Reads t isToken text rest ns) :
    (optional target).Reads t isToken text rest ns := by
  obtain ⟨ds, ⟨hit, hanswer, rfl, hrest⟩, hshows⟩ := h
  refine ⟨_, ?_, hshows⟩
  have hpasses := Passes.once (s := optional target) rfl (Or.inr rfl) hanswer
  rwa [hrest] at hpasses

theorem reads_star (h : target.ReadsRounds t isToken text rest ns) :
    (star target).Reads t isToken text rest ns := by
  obtain ⟨ds, hrounds, hshows⟩ := h
  exact ⟨ds, .rounds rfl (Or.inl rfl) hrounds, hshows⟩

theorem reads_plus (h : target.ReadsRounds t isToken text rest ns) :
    (plus target).Reads t isToken text rest ns := by
  obtain ⟨ds, hrounds, hshows⟩ := h
  exact ⟨ds, .rounds rfl (Or.inr rfl) hrounds, hshows⟩

/-- An optional step passes where its target is not there. -/
theorem passes_optional_of_none {input : List Char} (h : target.Answers t input none) :
    (optional target).Passes t input [] input false := .without rfl (Or.inl rfl) h

theorem passes_star_of_none {input : List Char} (h : target.Answers t input none) :
    (star target).Passes t input [] input false := .without rfl (Or.inr rfl) h

theorem skims_optional_of_none (h : target.Answers t rest none) :
    (optional target).Skims t isToken [] rest [] :=
  ⟨[], ⟨false, passes_optional_of_none h⟩, Draft.shows_nil _⟩

/-- A step that may repeat skims nothing where its target is not there. -/
theorem skims_star_of_none (h : target.Answers t rest none) : (star target).Skims t isToken [] rest [] :=
  ⟨[], ⟨false, passes_star_of_none h⟩, Draft.shows_nil _⟩

theorem fails_one {input : List Char} (h : target.Answers t input none) : (one target).Fails t input :=
  ⟨rfl, Or.inl rfl, h⟩

/-- A step that repeats needs its target once. -/
theorem fails_plus {input : List Char} (h : target.Answers t input none) : (plus target).Fails t input :=
  ⟨rfl, Or.inr rfl, h⟩

theorem skimAll_nil (rest : List Char) : SkimAll t isToken [] [] rest [] :=
  ⟨[], ⟨false, .nil _⟩, Draft.shows_nil _⟩

/-- Texts read one after another are read together. -/
theorem Skims.cons (h : s.Skims t isToken text (text' ++ rest) ns)
    (hs : ReadAll t isToken steps text' rest ms) :
    ReadAll t isToken (s :: steps) (text ++ text') rest (ns ++ ms) := by
  obtain ⟨ds, ⟨started, hpasses⟩, hshows⟩ := h
  obtain ⟨es, hpassAll, hshows'⟩ := hs
  rw [ReadAll, Told, List.append_assoc]
  refine ⟨ds ++ es, ?_, hshows.append (List.suffix_append _ _) hshows'⟩
  have hboth := PassAll.cons hpasses hpassAll
  rwa [Bool.or_true] at hboth

/-- A step that is read, with steps behind it that are skimmed, is read with them. -/
theorem Reads.cons (h : s.Reads t isToken text (text' ++ rest) ns)
    (hs : SkimAll t isToken steps text' rest ms) :
    ReadAll t isToken (s :: steps) (text ++ text') rest (ns ++ ms) := by
  obtain ⟨ds, hpasses, hshows⟩ := h
  obtain ⟨es, ⟨started, hpassAll⟩, hshows'⟩ := hs
  rw [ReadAll, Told, List.append_assoc]
  exact ⟨ds ++ es, .cons hpasses hpassAll, hshows.append (List.suffix_append _ _) hshows'⟩

theorem Reads.alone (h : s.Reads t isToken text rest ns) : ReadAll t isToken [s] text rest ns := by
  rw [← List.append_nil text, ← List.append_nil ns]
  rw [← List.nil_append rest] at h
  exact h.cons (skimAll_nil rest)

theorem Skims.alone (h : s.Skims t isToken text rest ns) : SkimAll t isToken [s] text rest ns := by
  obtain ⟨ds, ⟨started, hpasses⟩, hshows⟩ := h
  refine ⟨ds, ⟨started, ?_⟩, hshows⟩
  have hall := PassAll.cons hpasses (.nil rest)
  rwa [List.append_nil, Bool.or_false] at hall

/-- Steps are skimmed one after another. -/
theorem Skims.cons_skimAll (h : s.Skims t isToken text (text' ++ rest) ns)
    (hs : SkimAll t isToken steps text' rest ms) :
    SkimAll t isToken (s :: steps) (text ++ text') rest (ns ++ ms) := by
  obtain ⟨ds, ⟨started, hpasses⟩, hshows⟩ := h
  obtain ⟨es, ⟨started', hpassAll⟩, hshows'⟩ := hs
  rw [SkimAll, Told, List.append_assoc]
  exact ⟨ds ++ es, ⟨_, .cons hpasses hpassAll⟩, hshows.append (List.suffix_append _ _) hshows'⟩

/-- The first alternative that makes a match reads the text. -/
def ReadFirst (t : Table) (isToken : String → Bool) (alts : List (List Step)) :
    List Char → List Char → List Node → Prop :=
  Told isToken (Chooses t alts)

theorem ReadAll.first {alts : List (List Step)} (h : ReadAll t isToken steps text rest ns) :
    ReadFirst t isToken (steps :: alts) text rest ns := by
  obtain ⟨ds, hpasses, hshows⟩ := h
  exact ⟨ds, .first hpasses, hshows⟩

/-- An alternative is read where those before it are rejected. -/
theorem ReadFirst.next {alts : List (List Step)} (hnot : Rejected t steps (text ++ rest))
    (h : ReadFirst t isToken alts text rest ns) : ReadFirst t isToken (steps :: alts) text rest ns := by
  obtain ⟨ds, hchooses, hshows⟩ := h
  exact ⟨ds, .next hnot hchooses, hshows⟩

/-- An alternative that begins with what is not there is rejected. -/
theorem rejected_of_none {input : List Char} (h : target.Answers t input none) :
    Rejected t (one target :: steps) input := Or.inl (.here (fails_one h))

/-- Steps fail where one fails behind others that are skimmed. -/
theorem Skims.failsAt (h : s.Skims t isToken text rest ns) (hs : FailsAt t steps rest) :
    FailsAt t (s :: steps) (text ++ rest) := by
  obtain ⟨ds, ⟨started, hpasses⟩, -⟩ := h
  exact .later hpasses hs

end Step

/-! ## Rules -/

namespace Table

variable {fragment : Bool} {alts : List (List Step)}

/-- A rule whose children take its place shows what its alternative shows. -/
theorem reads_fragment (hrule : t.declares name true alts = true)
    (h : Step.ReadFirst t isToken alts text rest ns) : t.Reads isToken name text rest ns := by
  obtain ⟨ds, hchooses, hshows⟩ := h
  refine ⟨ds, ⟨_, Ends.of_chooses hrule hchooses, ?_, rfl⟩, hshows⟩
  rw [Match.additions, if_pos rfl]

/-- The nodes of a rule that is no fragment. -/
theorem takes_of_chooses (hrule : t.declares name false alts = true) {input rest : List Char}
    {ds : List Draft} (h : Step.Chooses t alts input ds rest) :
    t.Takes name input [⟨name, none, input.length, rest.length, ds⟩] rest := by
  refine ⟨_, Ends.of_chooses hrule h, ?_, rfl⟩
  rw [Match.additions, if_neg (by simp)]

/-- A rule whose nodes are tokens reads a text as a token with this text. -/
theorem reads_token (hrule : t.declares name false alts = true) (htoken : isToken name = true)
    (hkeeps : Draft.keeps false name = true) (h : Step.ReadFirst t isToken alts text rest ns) :
    t.Reads isToken name text rest [Node.token name text] := by
  obtain ⟨ds, hchooses, hshows⟩ := h
  exact ⟨_, takes_of_chooses hrule hchooses, hshows.token htoken hkeeps⟩

/-- Any other rule that is shown reads a text as a node of what its alternative reads. -/
theorem reads_branch (hrule : t.declares name false alts = true) (htoken : isToken name = false)
    (hkeeps : Draft.keeps false name = true) (h : Step.ReadFirst t isToken alts text rest ns) :
    t.Reads isToken name text rest [Node.branch name ns] := by
  obtain ⟨ds, hchooses, hshows⟩ := h
  exact ⟨_, takes_of_chooses hrule hchooses, hshows.branch htoken hkeeps _ _⟩

/-- A rule whose nodes are left out of trees. -/
theorem reads_internal (hrule : t.declares name false alts = true) (hkeeps : Draft.keeps false name = false)
    (h : Step.ReadFirst t isToken alts text rest ns) : t.Reads isToken name text rest [] := by
  obtain ⟨ds, hchooses, hshows⟩ := h
  exact ⟨_, takes_of_chooses hrule hchooses, hshows.left_out hkeeps _ _⟩

/-- A rule is not there when none of its alternatives is. -/
theorem answers_rule_none {input : List Char} (hrule : t.declares name fragment alts = true)
    (h : ∀ alt ∈ alts, Step.Rejected t alt input) : (Target.rule name).Answers t input none :=
  Target.answers_rule (Ends.of_rejected hrule h)

end Table

/-- A text that is read to its end by the rule where parsing starts has a tree without errors. -/
theorem Parser.parse_of_readFirst {t : Table} {name : String} {alts : List (List Step)}
    (hstart : t.start?.map (·.name) = some name) (hrule : t.declares name false alts = true)
    (htoken : isToken name = false) (h : Step.ReadFirst t isToken alts text [] ns) :
    ∃ tree, Parser.parse ⟨t, {}⟩ (String.ofList text) none = .ok tree ∧ tree.errors = [] ∧
      tree.root.outline isToken = .branch name ns := by
  obtain ⟨ds, hchooses, hshows⟩ := h
  rw [List.append_nil] at hchooses hshows
  obtain ⟨herrors, hnodes⟩ := hshows text List.suffix_rfl
  have hvalue := (Table.Ends.of_chooses hrule hchooses).matchRule_value
  have hdeclared : t.contains name = true := by
    obtain ⟨e, he, -⟩ := Table.exists_of_declares hrule
    simp [Table.contains, he]
  refine ⟨Match.finish ⟨⟨name, none, text.length, 0, ds⟩, false, []⟩ text {}, ?_, ?_, ?_⟩
  · simp only [Parser.parse, Parser.run, hstart, Option.getD_none, Option.getD_some, hdeclared, if_true,
      String.toList_ofList, hvalue, List.length_nil]
  · simp [Match.finish, Match.trailing, Draft.errors, herrors]
  · rw [Match.finish, Draft.finish, Node.outline, if_neg (by simp [htoken]), hnodes]
    rfl

end Reading

end Grammarian
