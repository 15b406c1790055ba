import Grammarian.Proofs.Parse.Language
import Grammarian.Proofs.Parse.Settled
import Grammarian.Proofs.Tree.Errors

/-!
# Rules that imitate one another

What a rule of one table matches without errors, a rule of another table may match too, with nodes that show the
same: `Imitates`. What stands behind the match has a part in it, as the other rule must not go on where the first
one ends.
-/

namespace Grammarian

/-! ## Drafts with the same outlines -/

namespace Draft

/-- No node has a fault. -/
def Faultless (ds : List Draft) : Prop := ∀ d ∈ ds, ∀ n ∈ d.nodes, n.fault = none

/-- Drafts that show the same in every text. -/
structure Alike (isToken : String → Bool) (ds ds' : List Draft) : Prop where
  faultless : Faultless ds → Faultless ds'
  outlines : ∀ whole, outlines isToken whole ds' = outlines isToken whole ds

variable {isToken : String → Bool} {ds ds' es es' : List Draft} {kind : String} {left after : Nat}

/-- Drafts have no errors if they are faultless. -/
theorem errorsAll_eq_nil_iff (whole : List Char) : errorsAll whole ds = [] ↔ Faultless ds := by
  rw [errorsAll_eq_flatMap, List.flatMap_eq_nil_iff]
  refine forall₂_congr fun d _ => ?_
  rw [errors_eq_filterMap, List.filterMap_eq_nil_iff]
  simp

/-- Drafts one after another are faultless if both are. -/
theorem faultless_append : Faultless (ds ++ es) ↔ Faultless ds ∧ Faultless es := List.forall_mem_append

theorem faultless_node : Faultless [⟨kind, none, left, after, ds⟩] ↔ Faultless ds := by
  rw [← errorsAll_eq_nil_iff [], ← errorsAll_eq_nil_iff [], errorsAll_singleton]

/-- The outline of a draft that is kept is that of its node. -/
theorem outlines_singleton {d : Draft} (hkeeps : keeps false d.kind = true) (whole : List Char) :
    outlines isToken whole [d] = [(d.finish whole false).outline isToken] := by
  rw [outlines, finishAll, if_pos hkeeps, finishAll, Node.outlineAll, Node.outlineAll]

/-- A node's outline is its token or the outlines of its children, if it is kept. -/
theorem outlines_node (whole : List Char) (fault : Option Fault) :
    outlines isToken whole [⟨kind, fault, left, after, ds⟩] =
    if keeps false kind then
      [if isToken kind then ⟨kind, slice whole left after, 0, 0, []⟩
        else Node.branch kind (outlines isToken whole ds)]
    else [] := by
  rw [outlines, finishAll]
  split
  next =>
    rw [finishAll, finish, Node.outlineAll, Node.outlineAll, Node.outline]
    split
    next => rfl
    next => rfl
  next => rfl

/-- Drafts that show nothing in any text. -/
def Hidden (isToken : String → Bool) (ds : List Draft) : Prop := ∀ whole, outlines isToken whole ds = []

/-- What is hidden stays so behind what is hidden. -/
theorem Hidden.append (h : Hidden isToken ds) (h' : Hidden isToken es) : Hidden isToken (ds ++ es) := by
  intro whole
  rw [outlines_append, h whole, h' whole, List.append_nil]

theorem hidden_nil : Hidden isToken [] := fun _ => rfl

theorem hidden_node (hkeeps : keeps false kind = false) (fault : Option Fault) :
    Hidden isToken [⟨kind, fault, left, after, ds⟩] := by
  intro whole
  rw [outlines_node, if_neg (by simp [hkeeps])]

namespace Alike

theorem refl (ds : List Draft) : Alike isToken ds ds := ⟨id, fun _ => rfl⟩

theorem append (h : Alike isToken ds ds') (h' : Alike isToken es es') : Alike isToken (ds ++ es) (ds' ++ es') where
  faultless := by
    rw [faultless_append, faultless_append]
    exact fun hfaultless => ⟨h.faultless hfaultless.1, h'.faultless hfaultless.2⟩
  outlines whole := by rw [outlines_append, outlines_append, h.outlines, h'.outlines]

/-- Nodes with like children are alike. -/
theorem node (h : Alike isToken ds ds') :
    Alike isToken [⟨kind, none, left, after, ds⟩] [⟨kind, none, left, after, ds'⟩] where
  faultless := by
    rw [faultless_node, faultless_node]
    exact h.faultless
  outlines whole := by rw [outlines_node, outlines_node, h.outlines]

/-- What shows nothing is alike. -/
theorem of_hidden (hfaultless : Faultless ds → Faultless ds') (hds : Hidden isToken ds) (hds' : Hidden isToken ds') :
    Alike isToken ds ds' := ⟨hfaultless, fun whole => (hds' whole).trans (hds whole).symm⟩

end Alike

end Draft

open Draft

section Hidden

variable {isToken : String → Bool} {t : Table} {name : String} {alts : List (List Step)} {input rest : List Char}
  {ds : List Draft}

/-- A match of a rule whose nodes are left out. -/
theorem Table.Ends.hidden (h : t.Settles) (hrule : t.declares name false alts = true) (htakes : takesAll alts = true)
    (hkeeps : keeps false name = false) {m : Match} (hm : t.Ends name input (some m)) :
    Hidden isToken m.additions := by
  obtain ⟨ds, -, hform⟩ := hm.chooses h hrule htakes
  rw [hform, Match.additions, if_neg (by simp)]
  exact hidden_node hkeeps none

theorem Target.Rounds.hidden (h : (Target.rule name).Rounds t input ds rest)
    (hone : ∀ input m, t.Ends name input (some m) → Hidden isToken m.additions) : Hidden isToken ds := by
  induction h with
  | last h _ =>
    obtain ⟨m, hm, rfl⟩ := Target.ends_of_answers_some h
    exact hone _ m hm
  | more h _ _ _ ih =>
    obtain ⟨m, hm, rfl⟩ := Target.ends_of_answers_some h
    exact (hone _ m hm).append ih

theorem Step.hidden_of_passes_star {started : Bool} (h : (Step.star (.rule name)).Passes t input ds rest started)
    (hone : ∀ input m, t.Ends name input (some m) → Hidden isToken m.additions) : Hidden isToken ds := by
  rcases Step.rounds_of_passes_star h with ⟨hrounds, -⟩ | ⟨-, rfl, -, -⟩
  · exact hrounds.hidden hone
  · exact hidden_nil

end Hidden

/-! ## Rules that imitate one another -/

section Imitation

variable {isToken : String → Bool} {w a : Table} {K : List Char → Prop} {name name' : String}
  {input rest : List Char} {ds : List Draft} {started : Bool}

/-- What a rule of one table matches without errors at a place, a rule of another table matches there too, with
nodes that show the same, provided that what is left behind the match is fit for it. -/
def Imitates (isToken : String → Bool) (w a : Table) (K : List Char → Prop) (name name' : String)
    (input : List Char) : Prop :=
  ∀ m, w.Ends name input (some m) → Faultless m.additions → K m.rest →
    ∃ m', a.Ends name' input (some m') ∧ m'.rest = m.rest ∧ Alike isToken m.additions m'.additions

namespace Imitates

/-- A rule that comes to the same. -/
theorem of_ends (h : ∀ found, w.Ends name input found → a.Ends name' input found) :
    Imitates isToken w a K name name' input :=
  fun m hm _ _ => ⟨m, h _ hm, rfl, .refl _⟩

/-- A step that is needed once is imitated. -/
theorem one (h : Imitates isToken w a K name name' input)
    (hone : (Step.one (.rule name)).Passes w input ds rest started) (hds : Faultless ds) (hrest : K rest) :
    ∃ ds', (Step.one (.rule name')).Passes a input ds' rest started ∧ Alike isToken ds ds' := by
  obtain ⟨hit, hhit, rfl, rfl, rfl⟩ := Step.hit_of_passes_one hone
  obtain ⟨m, hm, rfl⟩ := Target.ends_of_answers_some hhit
  obtain ⟨m', hm', hsame, halike⟩ := h m hm hds hrest
  refine ⟨_, ?_, halike⟩
  have hpasses := Step.passes_rule hm'
  rwa [hsame] at hpasses

/-- An optional step is imitated, where what is not there is not there in the other either. -/
theorem optional (h : Imitates isToken w a K name name' input)
    (hnone : w.Ends name input none → a.Ends name' input none)
    (hoptional : (Step.optional (.rule name)).Passes w input ds rest started) (hds : Faultless ds) (hrest : K rest) :
    ∃ ds', (Step.optional (.rule name')).Passes a input ds' rest started ∧ Alike isToken ds ds' := by
  rcases Step.hit_of_passes_optional hoptional with ⟨hit, hhit, rfl, rfl, rfl⟩ | ⟨hmiss, rfl, rfl, rfl⟩
  · obtain ⟨m, hm, rfl⟩ := Target.ends_of_answers_some hhit
    obtain ⟨m', hm', hsame, halike⟩ := h m hm hds hrest
    refine ⟨_, ?_, halike⟩
    have hpasses := Step.passes_optional (Target.answers_rule hm')
    have hpasses : (Step.optional (.rule name')).Passes a input m'.additions m'.rest true := hpasses
    rwa [hsame] at hpasses
  · exact ⟨[], Step.passes_optional_of_none (Target.answers_rule (hnone (Target.ends_of_answers_none hmiss))),
      .refl _⟩

/-- Rounds are imitated one by one, where each one is fit for the one before it. -/
theorem rounds (h : ∀ mid : List Char, mid.length ≤ input.length → Imitates isToken w a K name name' mid)
    (hbefore : ∀ mid m, w.Ends name mid (some m) → K mid)
    (hrounds : (Target.rule name).Rounds w input ds rest) (hds : Faultless ds) (hrest : K rest)
    (hend : a.Ends name' rest none) :
    ∃ ds', (Target.rule name').Rounds a input ds' rest ∧ Alike isToken ds ds' := by
  induction hrounds with
  | @last input hit hhit _ =>
    obtain ⟨m, hm, rfl⟩ := Target.ends_of_answers_some hhit
    obtain ⟨m', hm', hsame, halike⟩ := h input le_rfl m hm hds hrest
    have hnone : (Target.rule name').Answers a m'.rest none := by
      rw [hsame]
      exact Target.answers_rule hend
    have hround : (Target.rule name').Rounds a input m'.additions m'.rest :=
      Target.Rounds.last (Target.answers_rule hm') (.inr (.inr hnone))
    rw [hsame] at hround
    exact ⟨_, hround, halike⟩
  | @more input rest hit ds hhit hne hlt hmore ih =>
    obtain ⟨m, hm, rfl⟩ := Target.ends_of_answers_some hhit
    rw [faultless_append] at hds
    obtain ⟨hit, hhit⟩ := hmore.first
    obtain ⟨next, hnext, -⟩ := Target.ends_of_answers_some hhit
    obtain ⟨m', hm', hsame, halike⟩ := h input le_rfl m hm hds.1 (hbefore _ next hnext)
    obtain ⟨es, hes, hlike⟩ := ih (fun mid hmid => h mid (hmid.trans hlt.le)) hds.2 hrest hend
    have hagain : (Target.rule name').Rounds a m'.rest es rest := by
      rw [hsame]
      exact hes
    have hne' : m'.rest ≠ [] := by
      rw [hsame]
      exact hne
    have hlt' : m'.rest.length < input.length := by
      rw [hsame]
      exact hlt
    exact ⟨_, Target.Rounds.more (Target.answers_rule hm') hne' hlt' hagain, halike.append hlike⟩

end Imitates

/-- The first of several rules that matches is imitated, where the ones before it do not match either. -/
theorem chooses_imitated {names : List String}
    (hnone : ∀ k ∈ names.dropLast, w.Ends k input none → a.Ends k input none)
    (h : ∀ k ∈ names, Imitates isToken w a K k k input)
    (hchooses : Step.Chooses w (names.map Step.oneRule) input ds rest) (hds : Faultless ds) (hrest : K rest) :
    ∃ ds', Step.Chooses a (names.map Step.oneRule) input ds' rest ∧ Alike isToken ds ds' := by
  obtain ⟨front, k, back, m, rfl, hfront, hm, rfl, rfl⟩ := Step.exists_of_chooses_oneRule hchooses
  obtain ⟨m', hm', hsame, halike⟩ := h k (by simp) m hm hds hrest
  have hbefore : ∀ j ∈ front, a.Ends j input none := by
    intro j hj
    refine hnone j ?_ (hfront j hj)
    rw [List.dropLast_append_of_ne_nil (List.cons_ne_nil k back)]
    exact List.mem_append_left _ hj
  refine ⟨_, ?_, halike⟩
  rw [← hsame]
  exact Step.chooses_oneRule hbefore hm'

/-- What steps do one after another, other steps do too. -/
def ImitatesAll (isToken : String → Bool) (w a : Table) (K : List Char → Prop) (steps steps' : List Step)
    (input : List Char) : Prop :=
  ∀ ds rest started, Step.PassAll w steps input ds rest started → Faultless ds → K rest →
    ∃ ds', Step.PassAll a steps' input ds' rest started ∧ Alike isToken ds ds'

/-- The only alternatives of two rules. -/
theorem ImitatesAll.chooses {steps steps' : List Step} (h : ImitatesAll isToken w a K steps steps' input)
    (ds : List Draft) (rest : List Char) (hchooses : Step.Chooses w [steps] input ds rest) (hds : Faultless ds)
    (hrest : K rest) : ∃ ds', Step.Chooses a [steps'] input ds' rest ∧ Alike isToken ds ds' := by
  obtain ⟨ds', hall, halike⟩ := h ds rest true (Step.passAll_of_chooses hchooses) hds hrest
  exact ⟨ds', .first hall, halike⟩

theorem imitatesAll_nil (input : List Char) : ImitatesAll isToken w a K [] [] input := by
  intro ds rest started hall _ _
  obtain ⟨rfl, rfl, rfl⟩ := Step.passAll_nil hall
  exact ⟨[], .nil _, .refl _⟩

/-- One step more. What the steps behind it do tells what stands where it has come to. -/
theorem imitatesAll_cons {s s' : Step} {steps steps' : List Step}
    (h : ∀ ds mid started, s.Passes w input ds mid started →
      (∀ es rest more, Step.PassAll w steps mid es rest more → Faultless ds → K rest →
        ∃ ds', s'.Passes a input ds' mid started ∧ Alike isToken ds ds') ∧
      ImitatesAll isToken w a K steps steps' mid) :
    ImitatesAll isToken w a K (s :: steps) (s' :: steps') input := by
  intro ds rest started hall hds hrest
  obtain ⟨front, mid, first, back, more, hpasses, hmore, rfl, rfl⟩ := Step.passAll_cons hall
  rw [faultless_append] at hds
  obtain ⟨hstep, hsteps⟩ := h front mid first hpasses
  obtain ⟨front', hpasses', halike⟩ := hstep back rest more hmore hds.1 hrest
  obtain ⟨back', hmore', hlike⟩ := hsteps back rest more hmore hds.2 hrest
  exact ⟨front' ++ back', .cons hpasses' hmore', halike.append hlike⟩

/-- One step more, with a target that has the same answers. -/
theorem imitatesAll_cons_same {s : Step} {steps steps' : List Step}
    (hsame : ∀ input got, s.target.Answers w input got → s.target.Answers a input got)
    (h : ∀ ds mid started, s.Passes w input ds mid started → ImitatesAll isToken w a K steps steps' mid) :
    ImitatesAll isToken w a K (s :: steps) (s :: steps') input :=
  imitatesAll_cons fun ds mid started hpasses =>
    ⟨fun _ _ _ _ _ _ => ⟨ds, hpasses.transfer hsame, .refl ds⟩, h ds mid started hpasses⟩

/-- One step more that does without its target. -/
theorem imitatesAll_skip {s' : Step} {steps steps' : List Step}
    (hskip : ∀ es rest more, Step.PassAll w steps input es rest more → s'.Passes a input [] input false)
    (h : ImitatesAll isToken w a K steps steps' input) : ImitatesAll isToken w a K steps (s' :: steps') input := by
  intro ds rest started hall hds hrest
  obtain ⟨ds', hall', halike⟩ := h ds rest started hall hds hrest
  exact ⟨ds', .cons (hskip ds rest started hall) hall', halike⟩

/-- A fragment imitates a fragment where the chosen alternatives do. -/
theorem imitates_fragment {alts alts' : List (List Step)} (hsettles : w.Settles)
    (hrule : w.declares name true alts = true) (htakes : Table.takesAll alts = true)
    (hrule' : a.declares name' true alts' = true)
    (h : ∀ ds rest, Step.Chooses w alts input ds rest → Faultless ds → K rest →
      ∃ ds', Step.Chooses a alts' input ds' rest ∧ Alike isToken ds ds') :
    Imitates isToken w a K name name' input := by
  intro m hm hfaultless hrest
  obtain ⟨ds, hchooses, hform⟩ := Table.Ends.chooses hsettles hrule htakes hm
  have hadditions : m.additions = ds := by
    rw [hform, Match.additions]
    exact if_pos rfl
  rw [hadditions] at hfaultless ⊢
  obtain ⟨ds', hchooses', halike⟩ := h ds m.rest hchooses hfaultless hrest
  refine ⟨_, Table.Ends.of_chooses hrule' hchooses', rfl, ?_⟩
  rw [Match.additions, if_pos rfl]
  exact halike

/-- A rule with a node imitates one of the same name. -/
theorem imitates_node {alts alts' : List (List Step)} (hsettles : w.Settles)
    (hrule : w.declares name false alts = true) (htakes : Table.takesAll alts = true)
    (hrule' : a.declares name false alts' = true)
    (h : ∀ ds rest, Step.Chooses w alts input ds rest → Faultless ds → K rest →
      ∃ ds', Step.Chooses a alts' input ds' rest ∧ Alike isToken ds ds') :
    Imitates isToken w a K name name input := by
  intro m hm hfaultless hrest
  obtain ⟨ds, hchooses, hform⟩ := Table.Ends.chooses hsettles hrule htakes hm
  have hadditions : m.additions = [⟨name, none, input.length, m.rest.length, ds⟩] := by
    rw [hform, Match.additions]
    exact if_neg (by simp)
  rw [hadditions, faultless_node] at hfaultless
  rw [hadditions]
  obtain ⟨ds', hchooses', halike⟩ := h ds m.rest hchooses hfaultless hrest
  refine ⟨_, Table.Ends.of_chooses hrule' hchooses', rfl, ?_⟩
  rw [Match.additions, if_neg (by simp)]
  exact halike.node

end Imitation

/-! ## Trees -/

/-- **What one table parses without errors, the other one parses without errors**, as a tree with the same
outline. -/
theorem Parser.parse_of_imitates {isToken : String → Bool} {w a : Table} {name : String} {alts alts' : List (List Step)}
    {input : String} (h : Imitates isToken w a (fun _ => True) name name input.toList) (hsettles : w.Settles)
    (hsettles' : a.Settles) (hstart : w.start?.map (·.name) = some name) (hstart' : a.start?.map (·.name) = some name)
    (hrule : w.declares name false alts = true) (hrule' : a.declares name false alts' = true)
    (htakes : Table.takesAll alts = true) (htakes' : Table.takesAll alts' = true) (hkeeps : keeps false name = true)
    {tree : Tree} (hparse : Parser.parse ⟨w, {}⟩ input none = .ok tree) (herrors : tree.errors = []) :
    ∃ tree', Parser.parse ⟨a, {}⟩ input none = .ok tree' ∧ tree'.errors = [] ∧
      tree'.root.outline isToken = tree.root.outline isToken := by
  obtain ⟨m, hm, rfl⟩ := exists_match_of_parse hparse
  have hname : Parser.startName ⟨w, {}⟩ none = name := by
    rw [startName, hstart]
    rfl
  rw [startMatch, hname] at hm
  obtain ⟨found, hfound⟩ := hsettles name input.toList
  obtain rfl : found = some m := hfound.matchRule_value.symm.trans hm
  obtain ⟨ds, -, hform⟩ := hfound.chooses hsettles hrule htakes
  rw [Match.finish, List.append_eq_nil_iff] at herrors
  obtain ⟨hdraft, htrailing⟩ := herrors
  have hrest : m.rest = [] := by
    rw [Match.trailing] at htrailing
    split at htrailing
    next hempty => exact List.isEmpty_iff.1 hempty
    next => cases htrailing
  have hadditions : m.additions = [m.draft] := by
    rw [hform, Match.additions]
    exact if_neg (by simp)
  have hfaultless : Faultless m.additions := by
    rw [← errorsAll_eq_nil_iff input.toList, hadditions, errorsAll, errorsAll, List.append_nil]
    exact hdraft
  obtain ⟨m', hm', hsame, halike⟩ := h m hfound hfaultless trivial
  obtain ⟨ds', -, hform'⟩ := hm'.chooses hsettles' hrule' htakes'
  have hadditions' : m'.additions = [m'.draft] := by
    rw [hform', Match.additions]
    exact if_neg (by simp)
  have hrest' : m'.rest = [] := hsame.trans hrest
  have hvalue := hm'.matchRule_value
  have hcontains : a.contains name = true := by
    obtain ⟨e, he, -⟩ := Table.exists_of_declares hrule'
    simp [Table.contains, he]
  refine ⟨m'.finish input.toList {}, ?_, ?_, ?_⟩
  · simp only [parse, run, hstart', Option.getD_none, Option.getD_some, hcontains, if_true, hvalue]
  · have hnone := (errorsAll_eq_nil_iff input.toList).2 (halike.faultless hfaultless)
    rw [hadditions', errorsAll, errorsAll, List.append_nil] at hnone
    rw [Match.finish, hnone, Match.trailing, hrest']
    rfl
  · have hkind : m.draft.kind = name := by rw [hform]
    have hkind' : m'.draft.kind = name := by rw [hform']
    have houtlines := halike.outlines input.toList
    rw [hadditions, hadditions', outlines_singleton (hkind' ▸ hkeeps), outlines_singleton (hkind ▸ hkeeps)] at houtlines
    exact (List.cons.inj houtlines).1

end Grammarian
