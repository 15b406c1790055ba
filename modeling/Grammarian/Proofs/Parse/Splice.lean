import Grammarian.Proofs.Grammar.Accepted
import Grammarian.Proofs.Parse.Calls

/-!
# Splicing the nodes of a rule

A rule that is made a fragment gives its children away wherever its node is added, and nothing else about
matching changes: `Table.call_flagged`. The proof compares two plans that get different answers. The second
one mirrors the first when it asks and reports the same and, for the images of the answers, comes to the
image of the value.
-/

namespace Grammarian

namespace Draft

mutual

/-- The draft with the children of nodes of the kind `name` in their place, the draft itself staying. -/
def spliced (name : String) : Draft → Draft
  | ⟨kind, fault, left, after, children⟩ => ⟨kind, fault, left, after, splicedAll name children⟩

/-- The drafts with the children of those of the kind `name` in their place. -/
def splicedAll (name : String) : List Draft → List Draft
  | [] => []
  | d :: ds =>
    (if d.kind = name then (spliced name d).children else [spliced name d]) ++ splicedAll name ds

end

variable {name : String}

/-- What takes the place of a draft. -/
def spread (name : String) (d : Draft) : List Draft :=
  if d.kind = name then (d.spliced name).children else [d.spliced name]

theorem splicedAll_eq (name : String) (ds : List Draft) : splicedAll name ds = ds.flatMap (spread name) := by
  induction ds with
  | nil => rfl
  | cons d ds ih => rw [splicedAll, List.flatMap_cons, ih, spread]

@[simp] theorem splicedAll_nil : splicedAll name [] = [] := rfl

theorem splicedAll_append (ds es : List Draft) :
    splicedAll name (ds ++ es) = splicedAll name ds ++ splicedAll name es := by
  simp only [splicedAll_eq, List.flatMap_append]

/-- Splicing a draft leaves everything but its children as it is. -/
theorem spliced_eq (name : String) (d : Draft) :
    d.spliced name = { d with children := splicedAll name d.children } := by
  obtain ⟨kind, fault, left, after, children⟩ := d
  rfl

/-- A draft of another kind without children stays as it is. -/
theorem splicedAll_leaf {d : Draft} (hkind : d.kind ≠ name) (hleaf : d.children = []) :
    splicedAll name [d] = [d] := by
  rw [splicedAll_eq, List.flatMap_singleton, spread, if_neg hkind, spliced_eq, hleaf]
  obtain ⟨kind, fault, left, after, children⟩ := d
  cases hleaf
  rfl

end Draft

/-- The match of a rule once the rule `name` is a fragment. -/
def Match.splice (name : String) (m : Match) : Match where
  draft := m.draft.spliced name
  dissolves := m.dissolves || m.draft.kind = name
  rest := m.rest

def Growth.splice (name : String) (g : Growth) : Growth :=
  { g with children := Draft.splicedAll name g.children }

def Hit.splice (name : String) : Hit → Hit
  | nothing => nothing
  | text rest => text rest
  | node m => node (m.splice name)

section Splice

variable {name : String}

@[simp] theorem Match.splice_rest (m : Match) : (m.splice name).rest = m.rest := rfl

@[simp] theorem Growth.splice_rest (g : Growth) : (g.splice name).rest = g.rest := rfl

@[simp] theorem Growth.splice_children (g : Growth) :
    (g.splice name).children = Draft.splicedAll name g.children := rfl

@[simp] theorem Growth.splice_started (g : Growth) : (g.splice name).started = g.started := rfl

@[simp] theorem Growth.splice_pinned (g : Growth) : (g.splice name).pinned = g.pinned := rfl

/-- A match adds what takes the place of its additions. -/
theorem Match.splice_additions (m : Match) :
    (m.splice name).additions = Draft.splicedAll name m.additions := by
  obtain ⟨d, dissolves, rest⟩ := m
  cases dissolves with
  | true => simp [additions, splice, Draft.spliced_eq]
  | false =>
    by_cases hkind : d.kind = name
    · simp [additions, splice, Draft.splicedAll_eq, Draft.spread, hkind]
    · simp [additions, splice, Draft.splicedAll_eq, Draft.spread, hkind]

/-- It makes no difference whether a match is spliced before it is added or with the growth it is added to. -/
theorem Growth.splice_add (g : Growth) (m : Match) :
    (g.splice name).add (m.splice name) = (g.add m).splice name := by
  simp only [add, splice, Match.splice_additions, Match.splice_rest, Draft.splicedAll_append]

/-- A match of another kind that is a leaf stays as it is. -/
theorem Match.splice_leaf {d : Draft} (hkind : d.kind ≠ name) (hleaf : d.children = []) (rest : List Char) :
    Match.splice name ⟨d, false, rest⟩ = ⟨d, false, rest⟩ := by
  have hdraft : d.spliced name = d := by
    rw [Draft.spliced_eq, hleaf]
    obtain ⟨kind, fault, left, after, children⟩ := d
    cases hleaf
    rfl
  simp [splice, hdraft, hkind]

end Splice

/-- The outcome with another value. -/
def Traced.map {α β : Type} (f : α → β) (r : Traced α) : Traced β := ⟨f r.value, r.events⟩

namespace Plan

variable {α β γ δ : Type}

/-- The second plan asks and reports what the first one does. Where its answers are the images under `f` of
those to the first, it comes to the image under `φ`. -/
inductive Mirrors (f : Match → Match) (φ : α → β) : Plan α → Plan β → Prop
  | done (value : α) : Mirrors f φ (done value) (done (φ value))
  | report (event : Event) {p : Plan α} {p' : Plan β} (next : Mirrors f φ p p') :
    Mirrors f φ (report event p) (report event p')
  | ask (rule : String) (input : List Char) {p : Option Match → Plan α} {p' : Option Match → Plan β}
    (next : ∀ answer, Mirrors f φ (p answer) (p' (answer.map f))) :
    Mirrors f φ (ask rule input p) (ask rule input p')

variable {f : Match → Match} {φ : α → β} {p : Plan α} {p' : Plan β}

theorem mirrors_done {value : α} {value' : β} (h : value' = φ value) :
    (Plan.done value).Mirrors f φ (Plan.done value') := by
  rw [h]
  exact .done value

/-- One plan after another, where only values with `post` need be gone on from. -/
theorem Mirrors.bind_meets {ψ : γ → δ} {g : α → Plan γ} {g' : β → Plan δ} {post : α → Prop}
    (h : p.Mirrors f φ p') (hmeets : p.Meets .any post)
    (hg : ∀ value, post value → (g value).Mirrors f ψ (g' (φ value))) :
    (p.bind g).Mirrors f ψ (p'.bind g') := by
  induction h with
  | done value => exact hg value hmeets
  | report event next ih => exact .report event (ih hmeets)
  | ask rule input next ih => exact .ask rule input fun answer => ih answer (hmeets.2 answer trivial)

/-- Plans that mirror each other go on as such, if what follows every value does. -/
theorem Mirrors.bind {ψ : γ → δ} {g : α → Plan γ} {g' : β → Plan δ} (h : p.Mirrors f φ p')
    (hg : ∀ value, (g value).Mirrors f ψ (g' (φ value))) : (p.bind g).Mirrors f ψ (p'.bind g') := by
  induction h with
  | done value => exact hg value
  | report event next ih => exact .report event ih
  | ask rule input next ih => exact .ask rule input ih

/-- With the images of the answers, a mirror comes to the image of the value and tells the same. -/
theorem Mirrors.run {answers answers' : Answers}
    (hanswers : ∀ rule input, answers' rule input = (answers rule input).map (Option.map f))
    (h : p.Mirrors f φ p') : p'.run answers' = (p.run answers).map φ := by
  induction h with
  | done value => rfl
  | report event next ih => simp only [Plan.run, ih, Traced.map]
  | ask rule input next ih => simp only [Plan.run, hanswers, Traced.map, ih]

end Plan

open Plan

/-- The rule, a fragment if it is the one named `name`. -/
def Rule.flagged (name : String) (r : Rule) : Rule :=
  if r.name = name then { r with fragment := true } else r

namespace Rule

variable {name : String} {r : Rule}

@[simp] theorem flagged_name : (r.flagged name).name = r.name := by
  unfold flagged
  split
  · rfl
  · rfl

@[simp] theorem flagged_alternatives : (r.flagged name).alternatives = r.alternatives := by
  unfold flagged
  split
  · rfl
  · rfl

@[simp] theorem flagged_recoverTo : (r.flagged name).recoverTo = r.recoverTo := by
  unfold flagged
  split
  · rfl
  · rfl

@[simp] theorem flagged_pinAt : (r.flagged name).pinAt = r.pinAt := by
  unfold flagged
  split
  · rfl
  · rfl

@[simp] theorem flagged_implicitWhitespace :
    (r.flagged name).implicitWhitespace = r.implicitWhitespace := by
  unfold flagged
  split
  · rfl
  · rfl

@[simp] theorem flagged_collapseSingleChild :
    (r.flagged name).collapseSingleChild = r.collapseSingleChild := by
  unfold flagged
  split
  · rfl
  · rfl

theorem flagged_fragment : (r.flagged name).fragment = (r.fragment || r.name = name) := by
  unfold flagged
  split
  next h => simp [h]
  next h => simp [h]

theorem flagged_skipsWhitespace : (r.flagged name).skipsWhitespace = r.skipsWhitespace := by
  simp only [skipsWhitespace, flagged_implicitWhitespace]

/-- Flagging a rule as a fragment and settling the white-space rule can be done in either order. -/
theorem settled_flagged (whitespace : String) :
    (r.flagged name).settled whitespace = (r.settled whitespace).flagged name := by
  unfold settled flagged
  split_ifs <;> simp_all

end Rule

section Mirrored

variable {name : String}

/-- Only a target that is the flagged rule matches otherwise than before, and it matches spliced. The end of the
input has no rule. -/
theorem Target.plan_mirrors (hend : name ≠ Grammarian.endOfInput) (target : Target) (input : List Char) :
    (target.plan input).Mirrors (.splice name) (Option.map (.splice name)) (target.plan input) := by
  cases target with
  | rule rule => exact .ask rule input fun answer => mirrors_done (by cases answer <;> rfl)
  | endOfInput =>
    refine mirrors_done ?_
    split
    · have hsplice : Match.splice name Match.endOfInput = Match.endOfInput :=
        Match.splice_leaf (Ne.symm hend) rfl []
      simp [Hit.splice, hsplice]
    · rfl
  | literal value =>
    refine mirrors_done ?_
    split
    · rfl
    · simp [Hit.splice, Function.comp_def]
  | pattern p =>
    refine mirrors_done ?_
    simp [Hit.splice, Function.comp_def]

/-- White space is skipped alike: what is asked depends on the input left alone. -/
theorem skipWhitespace_mirrors (whitespace : String) (g : Growth) :
    (skipWhitespace whitespace g).Mirrors (.splice name) (.splice name)
      (skipWhitespace whitespace (g.splice name)) := by
  induction h : g.rest.length using Nat.strongRecOn generalizing g with
  | ind n ih =>
    rw [skipWhitespace, skipWhitespace, Growth.splice_rest]
    split_ifs with hempty
    · exact .done g
    · refine .ask whitespace g.rest fun answer => ?_
      cases answer with
      | none => exact .done g
      | some m =>
        simp only [Option.map_some, Match.splice_rest, Growth.splice_add]
        split_ifs with hlt
        · exact ih _ (h ▸ hlt) (g.add m) rfl
        · exact .done g

namespace Scene

variable {s : Scene}

/-- The surroundings of a call once the rule `name` is a fragment. -/
def flagged (name : String) (s : Scene) : Scene := { s with rule := s.rule.flagged name }

def PhaseEnd.splice (name : String) : PhaseEnd → PhaseEnd
  | next g => next (g.splice name)
  | stop g => stop (g.splice name)
  | fail => fail

theorem reach_mirrors (hend : name ≠ Grammarian.endOfInput) (target : Target) (g : Growth) :
    (s.reach target g).Mirrors (.splice name)
      (fun r => (r.1.splice name, r.2.map (.splice name)))
      ((s.flagged name).reach target (g.splice name)) := by
  rw [reach, reach]
  refine (target.plan_mirrors hend g.rest).bind fun got => ?_
  cases got with
  | some hit => exact .done (g, some hit)
  | none =>
    have hskips : (s.flagged name).rule.skipsWhitespace = s.rule.skipsWhitespace :=
      Rule.flagged_skipsWhitespace
    simp only [Option.map_none, hskips]
    split_ifs
    · refine (skipWhitespace_mirrors s.whitespace g).bind fun g' => ?_
      exact (target.plan_mirrors hend g'.rest).bind fun got => .done (g', got)
    · exact .done (g, none)

theorem resumption_mirrors (target : String) (input : List Char) :
    (resumption target input).Mirrors (.splice name) id (resumption target input) := by
  induction input with
  | nil => exact .ask target [] fun answer => mirrors_done (by cases answer <;> rfl)
  | cons c cs ih =>
    refine .ask target (c :: cs) fun answer => ?_
    cases answer with
    | none => exact ih
    | some m => exact .done _

/-- The node for skipped input is none of the flagged rule, so recovery does not change. -/
theorem recover_mirrors (herror : name ≠ syntaxError) (input : List Char) :
    (s.recover input).Mirrors (.splice name) (Option.map (.splice name))
      ((s.flagged name).recover input) := by
  have hto : (s.flagged name).rule.recoverTo = s.rule.recoverTo := Rule.flagged_recoverTo
  have hname : (s.flagged name).rule.name = s.rule.name := Rule.flagged_name
  have hdepth : (s.flagged name).depth = s.depth := rfl
  unfold recover
  rw [hto, hname, hdepth]
  split
  next target c cs _ =>
    refine .ask target (c :: cs) fun answer => ?_
    cases answer with
    | some m => exact .done none
    | none =>
      refine .report _ ((resumption_mirrors target cs).bind fun found => ?_)
      cases found with
      | none => exact .done none
      | some rest =>
        refine .report _ (mirrors_done ?_)
        rw [Option.map_some, Match.splice_leaf (Ne.symm herror) rfl]
  next => exact .done none

theorem commit_mirrors (number : Nat) (ph : Phase) (g : Growth) :
    (s.commit number ph g).Mirrors (.splice name) (.splice name)
      ((s.flagged name).commit number ph (g.splice name)) := by
  have hpins : (s.flagged name).pins number ph = s.pins number ph := by simp [pins, flagged]
  have hname : (s.flagged name).rule.name = s.rule.name := Rule.flagged_name
  simp only [commit, hpins, hname, Growth.splice_pinned]
  split_ifs
  · exact .report _ (.done _)
  · exact .done g

/-- Taking a hit does not depend on what the children are. -/
theorem take_splice (ph : Phase) (g : Growth) (hit : Hit) :
    take ph (g.splice name) (hit.splice name) =
      ((take ph g hit).1.splice name, (take ph g hit).2) := by
  cases hit with
  | nothing => rfl
  | text rest =>
    simp only [take, Hit.splice]
    split
    · rfl
    · rfl
  | node m =>
    simp only [take, Hit.splice, Growth.splice_add]
    split
    · rfl
    · rfl

/-- A syntax error is no node of the flagged rule. -/
theorem breakOff_splice (herror : name ≠ syntaxError) (ph : Phase) (g : Growth) :
    breakOff ph (g.splice name) = (breakOff ph g).splice name := by
  simp only [breakOff, Growth.splice, Draft.splicedAll_append]
  rw [Draft.splicedAll_leaf (Ne.symm herror) rfl]

theorem afterMiss_mirrors (herror : name ≠ syntaxError) (number : Nat) (ph : Phase) (again : Bool)
    (g : Growth)
    (hnext : ∀ m : Match, (s.afterHit number ph g (.node m)).Mirrors (.splice name) (.splice name)
      ((s.flagged name).afterHit number ph (g.splice name) (.node (m.splice name)))) :
    (s.afterMiss number ph again g).Mirrors (.splice name) (.splice name)
      ((s.flagged name).afterMiss number ph again (g.splice name)) := by
  have hname : (s.flagged name).rule.name = s.rule.name := Rule.flagged_name
  unfold afterMiss
  rw [hname, Growth.splice_pinned, Growth.splice_rest, breakOff_splice herror]
  split_ifs
  · exact .done PhaseEnd.fail
  · exact .done (PhaseEnd.next g)
  · exact .done (PhaseEnd.next g)
  · exact .report _ (.done (PhaseEnd.stop (breakOff ph g)))
  · refine (recover_mirrors herror g.rest).bind fun recovered => ?_
    cases recovered with
    | none => exact .done PhaseEnd.fail
    | some m => exact hnext m

/-- A phase goes the same way, with the same repetitions. The induction is on the input left. -/
theorem phase_mirrors (hend : name ≠ Grammarian.endOfInput) (herror : name ≠ syntaxError)
    (number : Nat) (ph : Phase) (again : Bool) (g : Growth) :
    (s.phase number ph again g).Mirrors (.splice name) (.splice name)
      ((s.flagged name).phase number ph again (g.splice name)) := by
  induction h : g.rest.length using Nat.strongRecOn generalizing again g with
  | ind n ih =>
    have hnext : ∀ (g' : Growth) (hit : Hit), g'.rest.length ≤ n →
        (s.afterHit number ph g' hit).Mirrors (.splice name) (.splice name)
          ((s.flagged name).afterHit number ph (g'.splice name) (hit.splice name)) := by
      intro g' hit hle
      unfold afterHit
      rw [take_splice]
      split_ifs with hmore
      · exact ih _ (Nat.lt_of_lt_of_le (take_shortens hmore) hle) true _ rfl
      · exact .done (PhaseEnd.next _)
    rw [phase_eq, phase_eq]
    refine (reach_mirrors hend ph.target g).bind_meets (s.reach_shortens ph.target g) ?_
    rintro ⟨g', got⟩ hle
    replace hle : g'.rest.length ≤ n := h ▸ hle
    dsimp only
    by_cases hnegative : ph.reference.isNegative = true
    · rw [if_pos hnegative, if_pos hnegative]
      cases got with
      | some hit => exact .done PhaseEnd.fail
      | none => exact .done (PhaseEnd.next g')
    · rw [if_neg hnegative, if_neg hnegative]
      cases got with
      | some hit =>
        refine (commit_mirrors number ph g').bind_meets (s.commit_keeps_rest number ph g') ?_
        intro g'' hrest
        exact hnext g'' hit (hrest ▸ hle)
      | none =>
        exact afterMiss_mirrors herror number ph again g' fun m => hnext g' (.node m) hle

/-- The phases of an alternative mirror each other one by one. -/
theorem phases_mirrors (hend : name ≠ Grammarian.endOfInput) (herror : name ≠ syntaxError)
    (number : Nat) (g : Growth) (phs : List Phase) :
    (s.phases number g phs).Mirrors (.splice name) (Option.map (.splice name))
      ((s.flagged name).phases number (g.splice name) phs) := by
  induction phs generalizing number g with
  | nil => exact .done (some g)
  | cons ph phs ih =>
    refine (phase_mirrors hend herror number ph false g).bind fun e => ?_
    cases e with
    | next g' => exact ih (number + 1) g'
    | stop g' => exact .done (some g')
    | fail => exact .done none

theorem alternative_mirrors (hend : name ≠ Grammarian.endOfInput) (herror : name ≠ syntaxError)
    (input : List Char) (phs : List Phase) :
    (s.alternative input phs).Mirrors (.splice name) (Option.map (.splice name))
      ((s.flagged name).alternative input phs) := by
  refine (phases_mirrors hend herror 1 { rest := input } phs).bind fun found => ?_
  cases found with
  | none => exact .done none
  | some g =>
    refine mirrors_done ?_
    have hname : (s.flagged name).rule.name = s.rule.name := Rule.flagged_name
    have hfragment : (s.flagged name).rule.fragment = (s.rule.fragment || s.rule.name = name) :=
      Rule.flagged_fragment
    rw [hname, hfragment, Growth.splice_started, Growth.splice_rest, Growth.splice_children]
    split_ifs
    · rfl
    · rfl

/-- The same alternative is the first to match, and its match is spliced. -/
theorem alternatives_mirrors (hend : name ≠ Grammarian.endOfInput) (herror : name ≠ syntaxError)
    (input : List Char) (alts : List (List Phase)) :
    (s.alternatives input alts).Mirrors (.splice name) (Option.map (.splice name))
      ((s.flagged name).alternatives input alts) := by
  induction alts with
  | nil => exact .done none
  | cons phs alts ih =>
    refine (alternative_mirrors hend herror input phs).bind fun found => ?_
    cases found with
    | none => exact ih
    | some m => exact .done (some m)

end Scene

namespace Table

/-- The entry, with its rule a fragment if it is the one named `name`. -/
def Entry.flagged (name : String) (e : Entry) : Entry := { e with rule := e.rule.flagged name }

/-- Where the rule does not collapse, its plan mirrors the one it has with `name` a fragment. -/
theorem Entry.plan_mirrors (hend : name ≠ Grammarian.endOfInput) (herror : name ≠ syntaxError)
    {e : Entry} (hplain : e.rule.collapseSingleChild = false) (whitespace : String) (depth : Nat)
    (input : List Char) :
    (e.plan whitespace depth input).Mirrors (.splice name) (Option.map (.splice name))
      ((e.flagged name).plan whitespace depth input) := by
  have hcollapse : ∀ m, e.rule.collapse m = m := by
    intro m
    simp [Rule.collapse, hplain]
  have hcollapse' : ∀ m, (e.flagged name).rule.collapse m = m := by
    intro m
    simp [Rule.collapse, Entry.flagged, hplain]
  refine (Scene.alternatives_mirrors (s := ⟨e.rule, whitespace, depth⟩) hend herror input
    e.alternatives).bind fun found => mirrors_done ?_
  simp [funext hcollapse, funext hcollapse', Function.comp_def]

/-- The table with the rule `name` a fragment. -/
def flagged (name : String) (t : Table) : Table := { t with entries := t.entries.map (.flagged name) }

variable {t : Table} {rules : List Rule} {whitespace : String}

/-- The table of flagged rules is the flagged table. -/
theorem ofRules_flagged (rules : List Rule) (whitespace : String) :
    ofRules (rules.map (.flagged name)) whitespace = (ofRules rules whitespace).flagged name := by
  simp only [ofRules, flagged, List.map_map, mk.injEq, and_true]
  refine List.map_congr_left fun r _ => ?_
  simp [Entry.flagged, Rule.settled_flagged, Rule.phases]

/-- A rule is found in the flagged table where it was found before. -/
theorem entry?_flagged (t : Table) (rule : String) :
    entry? (t.flagged name) rule = (t.entry? rule).map (.flagged name) := by
  simp only [ entry?, flagged, List.find?_map]
  congr 2
  funext e
  simp [Entry.flagged]

/-- The events at the end of a call tell nothing of children. -/
theorem concluded_splice (rule : String) (depth : Nat) (input : List Char) (r : Traced (Option Match)) :
    concluded rule depth input (r.map (Option.map (.splice name))) =
      (concluded rule depth input r).map (Option.map (.splice name)) := by
  obtain ⟨value, events⟩ := r
  cases value with
  | none => rfl
  | some m => rfl

section Calls

variable {maxDepth : Option Nat} {budget depth : Nat} {active : List Call} {rule : String}
  {input : List Char}

/-- A call can differ from its image in the calls further in only. -/
theorem call_flagged_of_run
    (hrun : ∀ e b, t.entry? rule = some e → budget = b + 1 →
      ((e.flagged name).plan t.whitespace depth input).run
          ((t.flagged name).call maxDepth b ((rule, input.length) :: active) (depth + 1)) =
        ((e.plan t.whitespace depth input).run
          (t.call maxDepth b ((rule, input.length) :: active) (depth + 1))).map
            (Option.map (.splice name))) :
    (t.flagged name).call maxDepth budget active depth rule input =
      (t.call maxDepth budget active depth rule input).map (Option.map (.splice name)) := by
  have hentry : entry? (t.flagged name) rule = (t.entry? rule).map (.flagged name) := entry?_flagged t rule
  cases he : t.entry? rule with
  | none =>
    rw [he] at hentry
    rw [call_undeclared he, call_undeclared hentry]
    rfl
  | some e =>
    rw [he] at hentry
    by_cases hdeep : maxDepth.any (· < depth) = true
    · rw [call_too_deep he hdeep, call_too_deep hentry hdeep]
      rfl
    · by_cases hactive : (rule, input.length) ∈ active
      · rw [call_in_progress he hdeep hactive, call_in_progress hentry hdeep hactive]
        rfl
      · cases budget with
        | zero =>
          rw [call_out_of_budget he hdeep hactive, call_out_of_budget hentry hdeep hactive]
          rfl
        | succ b =>
          rw [call_enter he hdeep hactive, call_enter hentry hdeep hactive, ← concluded_splice]
          exact congrArg _ (hrun e b he rfl)

/-- **A call with a rule made a fragment.** It goes the same way, tells the same events, and comes to the
spliced match. -/
theorem call_flagged (hend : name ≠ Grammarian.endOfInput) (herror : name ≠ syntaxError)
    (hplain : ∀ r ∈ t.rules, r.collapseSingleChild = false) :
    (t.flagged name).call maxDepth budget active depth rule input =
      (t.call maxDepth budget active depth rule input).map (Option.map (.splice name)) := by
  induction budget generalizing active depth rule input with
  | zero => exact call_flagged_of_run nofun
  | succ budget ih =>
    refine call_flagged_of_run fun e b he hb => ?_
    cases hb
    have hplan := Entry.plan_mirrors hend herror (hplain e.rule (rule_mem_of_entry he))
      t.whitespace depth input
    exact hplan.run fun rule s => ih

end Calls

end Table

end Mirrored

end Grammarian
