import Grammarian.Proofs.Parse.Advance
import Grammarian.Proofs.Parse.Likeness

/-!
# Matching that ends

Rules can be graded so that a rule asks at its own place for rules of lower grades only: the phases up to the
first one that has to consume something have such targets. Then matching without the guard ends, for every rule
and every input: `Table.Graded.exists_ends`.
-/

namespace Grammarian

/-- Grades for rules, and rules that consume something where they match. -/
structure Grading where
  /-- the rules with a grade above zero, the highest first -/
  order : List String
  consuming : List String

namespace Grading

def grade (G : Grading) (name : String) : Nat := (G.order.dropWhile (· ≠ name)).length

/-- What is left when a rule has matched at the front of `input`. -/
def Leaves (G : Grading) (name : String) (input rest : List Char) : Prop :=
  rest.length ≤ input.length ∧ (name ∈ G.consuming → rest.length < input.length)

/-- Whether a match of the target consumes something. -/
def consumes (G : Grading) : Target → Bool
  | .rule name => name ∈ G.consuming
  | .literal value => !value.isEmpty
  | .pattern p => p.source ≠ ""
  | .endOfInput => false

/-- A phase with a target below a grade. -/
def below (G : Grading) (grade : Nat) (ph : Phase) : Bool :=
  match ph.target with
  | .rule name => G.grade name < grade
  | _ => true

/-- A phase that has to consume something. -/
def advances (G : Grading) (ph : Phase) : Bool :=
  ph.reference.lookahead = .none && !ph.reference.isOptional && G.consumes ph.target

/-- The targets at the place where the alternative begins are below the grade. -/
def allows (G : Grading) (grade : Nat) : List Phase → Bool
  | [] => true
  | ph :: phs => G.below grade ph && (G.advances ph || G.allows grade phs)

/-- An alternative that consumes where it matches: its first phase has to, or is the only one. -/
def moves (G : Grading) : List Phase → Bool
  | [] => true
  | ph :: phs => ph.reference.lookahead = .none && G.consumes ph.target && (!ph.reference.isOptional || phs.isEmpty)

/-- A rule whose alternatives keep to the grading. -/
def fits (G : Grading) (e : Table.Entry) : Bool :=
  e.isTight && e.alternatives.all (G.allows (G.grade e.rule.name))
    && (e.rule.name ∉ G.consuming || e.alternatives.all G.moves)

/-- While a rule is matched, others are asked for further on, or at the same place when their grade is lower. -/
def contract (G : Grading) (name : String) (input : List Char) : Contract where
  asks rule s := s.length < input.length ∨ s.length ≤ input.length ∧ G.grade rule < G.grade name
  answers rule s answer := ∀ m ∈ answer, G.Leaves rule s m.rest

end Grading

section Plans

variable {G : Grading} {name : String} {input : List Char} {s : Scene} {ph : Phase} {phs : List Phase} {g : Growth}
  {number : Nat} {again : Bool}

/-- Less than `n` characters are left at the end of a phase. -/
def Scene.PhaseEnd.Below (n : Nat) : PhaseEnd → Prop
  | next g | stop g => g.rest.length < n
  | fail => True

theorem Scene.PhaseEnd.Below.mono {n m : Nat} {e : PhaseEnd} (h : e.Below n) (hle : n ≤ m) : e.Below m := by
  cases e with
  | next g => exact Nat.lt_of_lt_of_le h hle
  | stop g => exact Nat.lt_of_lt_of_le h hle
  | fail => trivial

namespace Grading

theorem plan_leaves (target : Target) {cs : List Char}
    (hasks : ∀ rule, target = .rule rule → (G.contract name input).asks rule cs) :
    (target.plan cs).Meets (G.contract name input) fun got => ∀ hit ∈ got,
      (hit.rest cs).length ≤ cs.length ∧ (G.consumes target = true → (hit.rest cs).length < cs.length) := by
  cases target with
  | rule rule =>
    refine ⟨hasks rule rfl, fun answer hanswer => ?_⟩
    intro hit hhit
    obtain ⟨m, hm, rfl⟩ := Option.map_eq_some_iff.1 hhit
    obtain ⟨hle, hlt⟩ := hanswer m hm
    exact ⟨hle, fun hconsumes => hlt (of_decide_eq_true hconsumes)⟩
  | endOfInput =>
    intro hit hhit
    split at hhit
    next hempty =>
      cases hhit
      exact ⟨Nat.zero_le _, nofun⟩
    next => cases hhit
  | literal value =>
    intro hit hhit
    split at hhit
    next hempty =>
      cases hhit
      exact ⟨Nat.le_refl _, fun hconsumes => by simp [consumes, hempty] at hconsumes⟩
    next hne =>
      obtain ⟨rest, hrest, rfl⟩ := Option.map_eq_some_iff.1 hhit
      have hlength := congrArg List.length (List.append_eq_of_isPrefixOf?_eq_some hrest)
      have hpos := List.length_pos_iff.2 (show value ≠ [] by simpa using hne)
      rw [List.length_append] at hlength
      exact ⟨(by omega : rest.length ≤ cs.length), fun _ => (by omega : rest.length < cs.length)⟩
  | pattern p =>
    intro hit hhit
    obtain ⟨rest, hrest, rfl⟩ := Option.map_eq_some_iff.1 hhit
    refine ⟨(Pattern.match?_suffix hrest).length_le, fun hconsumes => ?_⟩
    exact (Pattern.match?_isAhead (of_decide_eq_true hconsumes) hrest).2

theorem reach_leaves (hs : s.Tight) {target : Target}
    (hasks : ∀ rule, target = .rule rule → (G.contract name input).asks rule g.rest) :
    (s.reach target g).Meets (G.contract name input) fun r => r.1 = g ∧ ∀ hit ∈ r.2,
      (hit.rest g.rest).length ≤ g.rest.length ∧
        (G.consumes target = true → (hit.rest g.rest).length < g.rest.length) := by
  rw [Scene.reach]
  refine (plan_leaves target hasks).bind fun got hgot => ?_
  cases got with
  | some hit => exact ⟨rfl, hgot⟩
  | none =>
    simp only [hs.tight, Bool.false_eq_true, if_false]
    exact ⟨rfl, hgot⟩

theorem take_leaves {hit : Hit} (h : (hit.rest g.rest).length ≤ g.rest.length) :
    (Scene.take ph g hit).1.rest.length ≤ g.rest.length := by
  cases hpositive : ph.reference.isPositive with
  | true => rw [Scene.take_of_positive hpositive]
  | false => rwa [Scene.take_rest_of_not_positive hpositive]

theorem afterMiss_leaves (hs : s.Tight) (number : Nat) (ph : Phase) (again : Bool) (g : Growth) :
    (s.afterMiss number ph again g).Meets (G.contract name input) fun e =>
      e.Below (g.rest.length + 1) ∧ (∀ g', e = .next g' → g' = g ∧ (ph.reference.isOptional = true ∨ again = true)) ∧
        ((∃ g', e = .stop g') → g.pinned = true) := by
  have hrecover : s.recover g.rest = .done none := by simp only [Scene.recover, hs.strict]
  unfold Scene.afterMiss
  split
  next => exact ⟨trivial, by rintro g' ⟨⟩, by rintro ⟨g', ⟨⟩⟩⟩
  next =>
    split
    next hoptional =>
      exact ⟨Nat.lt_succ_self _, fun g' hg' => by cases hg'; exact ⟨rfl, .inl hoptional⟩, by rintro ⟨g', ⟨⟩⟩⟩
    next =>
      split
      next hagain =>
        rw [Bool.and_eq_true] at hagain
        exact ⟨Nat.lt_succ_self _, fun g' hg' => by cases hg'; exact ⟨rfl, .inr hagain.2⟩, by rintro ⟨g', ⟨⟩⟩⟩
      next =>
        split
        next hpinned => exact ⟨Nat.succ_pos _, by rintro g' ⟨⟩, fun _ => hpinned⟩
        next =>
          rw [hrecover]
          exact ⟨trivial, by rintro g' ⟨⟩, by rintro ⟨g', ⟨⟩⟩⟩

/-- A phase leaves no more than there was. The induction is on the input left. -/
theorem phase_leaves (hs : s.Tight) (number : Nat) (again : Bool)
    (hasks : ∀ rule, ph.target = .rule rule → ∀ cs : List Char, cs.length ≤ g.rest.length →
      (G.contract name input).asks rule cs) :
    (s.phase number ph again g).Meets (G.contract name input) (Scene.PhaseEnd.Below (g.rest.length + 1)) := by
  induction hlength : g.rest.length using Nat.strongRecOn generalizing again g with
  | ind n ih =>
    subst hlength
    rw [Scene.phase_eq]
    refine (reach_leaves hs fun rule hrule => hasks rule hrule _ le_rfl).bind ?_
    rintro ⟨g', got⟩ ⟨rfl, hgot⟩
    dsimp only at hgot ⊢
    split
    next =>
      cases got with
      | some hit => trivial
      | none => exact Nat.lt_succ_self _
    next =>
      cases got with
      | none => exact (afterMiss_leaves hs number ph again g').mono fun e he => he.1
      | some hit =>
        refine (Scene.commit_rest number ph g').bind fun g'' hrest => ?_
        have hle : (Scene.take ph g'' hit).1.rest.length ≤ g'.rest.length := by
          rw [← hrest]
          exact take_leaves (hrest ▸ (hgot hit rfl).1)
        unfold Scene.afterHit
        split
        next hmore =>
          have hlt : (Scene.take ph g'' hit).1.rest.length < g'.rest.length := hrest ▸ Scene.take_shortens hmore
          refine (ih _ hlt true (fun rule hrule cs hcs => hasks rule hrule cs (hcs.trans hle)) rfl).mono fun e he => ?_
          exact he.mono (Nat.succ_le_succ hle)
        next => exact Nat.lt_succ_of_le hle

/-- A phase with a target that consumes leaves less, unless it does without. -/
theorem phase_first (hs : s.Tight) (number : Nat) (hlook : ph.reference.lookahead = .none)
    (hconsumes : G.consumes ph.target = true)
    (hasks : ∀ rule, ph.target = .rule rule → ∀ cs : List Char, cs.length ≤ g.rest.length →
      (G.contract name input).asks rule cs) :
    (s.phase number ph false g).Meets (G.contract name input) fun e => e.Below g.rest.length ∨
      e = .next g ∧ ph.reference.isOptional = true ∨
        g.pinned = true ∧ ∃ g', e = .stop g' ∧ g'.rest.length ≤ g.rest.length := by
  have hnegative : ph.reference.isNegative = false := by simp [Reference.isNegative, hlook]
  have hpositive : ph.reference.isPositive = false := by simp [Reference.isPositive, hlook]
  rw [Scene.phase_eq]
  refine (reach_leaves hs fun rule hrule => hasks rule hrule _ le_rfl).bind ?_
  rintro ⟨g', got⟩ ⟨rfl, hgot⟩
  dsimp only at hgot ⊢
  rw [if_neg (by simp [hnegative])]
  cases got with
  | none =>
    refine (afterMiss_leaves hs number ph false g').mono ?_
    rintro e ⟨hbelow, hnext, hstop⟩
    cases e with
    | next g'' =>
      obtain ⟨rfl, hoptional⟩ := hnext g'' rfl
      exact .inr (.inl ⟨rfl, hoptional.resolve_right Bool.false_ne_true⟩)
    | stop g'' => exact .inr (.inr ⟨hstop ⟨g'', rfl⟩, g'', rfl, Nat.lt_succ_iff.1 hbelow⟩)
    | fail => exact .inl trivial
  | some hit =>
    refine (Scene.commit_rest number ph g').bind fun g'' hrest => ?_
    have hlt : (Scene.take ph g'' hit).1.rest.length < g'.rest.length := by
      rw [Scene.take_rest_of_not_positive hpositive, hrest]
      exact (hgot hit rfl).2 hconsumes
    unfold Scene.afterHit
    split
    next =>
      refine (phase_leaves hs number true fun rule hrule cs hcs =>
        hasks rule hrule cs (hcs.trans hlt.le)).mono fun e he => .inl (he.mono hlt)
    next => exact .inl hlt

theorem asks_of_below (hbelow : G.below (G.grade name) ph = true) {rule : String} (hrule : ph.target = .rule rule)
    {cs : List Char} (hcs : cs.length ≤ input.length) : (G.contract name input).asks rule cs := by
  rw [below, hrule] at hbelow
  exact .inr ⟨hcs, of_decide_eq_true hbelow⟩

/-- The phases of an alternative leave no more than there was. The induction is on the phases. -/
theorem phases_leave (hs : s.Tight) (number : Nat) (hg : g.rest.length ≤ input.length)
    (h : g.rest.length < input.length ∨ G.allows (G.grade name) phs = true) :
    (s.phases number g phs).Meets (G.contract name input) fun found =>
      ∀ g' ∈ found, g'.rest.length ≤ g.rest.length := by
  induction phs generalizing number g with
  | nil =>
    rintro g' ⟨⟩
    exact le_rfl
  | cons ph phs ih =>
    have hasks : ∀ rule, ph.target = .rule rule → ∀ cs : List Char, cs.length ≤ g.rest.length →
        (G.contract name input).asks rule cs := by
      intro rule hrule cs hcs
      rcases h with hlt | hallows
      · exact .inl (Nat.lt_of_le_of_lt hcs hlt)
      · rw [allows, Bool.and_eq_true] at hallows
        exact asks_of_below hallows.1 hrule (hcs.trans hg)
    have hnext : ∀ e : Scene.PhaseEnd, e.Below (g.rest.length + 1) →
        (∀ g', e = .next g' → g'.rest.length < input.length ∨ G.allows (G.grade name) phs = true) →
        ((match e with
          | .next g => s.phases (number + 1) g phs
          | .stop g => .done (some g)
          | .fail => .done none) : Plan (Option Growth)).Meets (G.contract name input) fun found =>
            ∀ g' ∈ found, g'.rest.length ≤ g.rest.length := by
      intro e hbelow hgo
      cases e with
      | next g' =>
        have hle : g'.rest.length ≤ g.rest.length := Nat.lt_succ_iff.1 hbelow
        exact (ih (number + 1) (hle.trans hg) (hgo g' rfl)).mono fun found hfound g'' hg'' =>
          (hfound g'' hg'').trans hle
      | stop g' =>
        rintro g'' ⟨⟩
        exact Nat.lt_succ_iff.1 hbelow
      | fail => rintro g'' ⟨⟩
    by_cases hadvances : G.advances ph = true
    · rw [advances, Bool.and_eq_true, Bool.and_eq_true, decide_eq_true_eq, Bool.not_eq_true'] at hadvances
      obtain ⟨⟨hlook, hoptional⟩, hconsumes⟩ := hadvances
      refine (phase_first hs number hlook hconsumes hasks).bind fun e he => ?_
      rcases he with hbelow | ⟨-, hskips⟩ | ⟨-, g', rfl, hle⟩
      · refine hnext e (hbelow.mono (Nat.le_succ _)) fun g' hg' => .inl ?_
        subst hg'
        exact Nat.lt_of_lt_of_le hbelow hg
      · rw [hoptional] at hskips
        cases hskips
      · exact hnext (.stop g') (Nat.lt_succ_of_le hle) nofun
    · refine (phase_leaves hs number false hasks).bind fun e hbelow => hnext e hbelow fun g' hg' => ?_
      subst hg'
      rcases h with hlt | hallows
      · exact .inl (Nat.lt_of_lt_of_le hbelow (Nat.succ_le_of_lt hlt))
      · rw [allows, Bool.and_eq_true, Bool.or_eq_true] at hallows
        exact .inr (hallows.2.resolve_left hadvances)

/-- A match of an alternative that consumes leaves less of the input. -/
theorem alternative_leaves (hs : s.Tight) (hallows : G.allows (G.grade name) phs = true) :
    (s.alternative input phs).Meets (G.contract name input) fun found =>
      ∀ m ∈ found, m.rest.length ≤ input.length ∧ (G.moves phs = true → m.rest.length < input.length) := by
  have hphases : (s.phases 1 { rest := input } phs).Meets (G.contract name input) fun found =>
      ∀ g ∈ found, g.rest.length ≤ input.length ∧
        (g.started = true → G.moves phs = true → g.rest.length < input.length) := by
    by_cases hmoves : G.moves phs = true
    · cases phs with
      | nil =>
        rintro g ⟨⟩
        exact ⟨le_rfl, by rintro ⟨⟩⟩
      | cons ph phs =>
        simp only [moves, Bool.and_eq_true, Bool.or_eq_true, decide_eq_true_eq, Bool.not_eq_true',
          List.isEmpty_iff] at hmoves
        obtain ⟨⟨hlook, hconsumes⟩, hfirst⟩ := hmoves
        rw [allows, Bool.and_eq_true] at hallows
        refine (phase_first (g := { rest := input }) hs 1 hlook hconsumes fun rule hrule cs hcs =>
          asks_of_below hallows.1 hrule hcs).bind fun e he => ?_
        rcases he with hbelow | ⟨rfl, hskips⟩ | ⟨hpinned, -⟩
        · cases e with
          | next g =>
            have hbelow : g.rest.length < input.length := hbelow
            refine (phases_leave hs 2 hbelow.le (.inl hbelow)).mono fun found hfound g' hg' => ?_
            have hlt := Nat.lt_of_le_of_lt (hfound g' hg') hbelow
            exact ⟨hlt.le, fun _ _ => hlt⟩
          | stop g =>
            have hbelow : g.rest.length < input.length := hbelow
            rintro g' ⟨⟩
            exact ⟨hbelow.le, fun _ _ => hbelow⟩
          | fail => rintro g' ⟨⟩
        · rcases hfirst with hneeds | rfl
          · rw [hneeds] at hskips
            cases hskips
          · rintro g ⟨⟩
            exact ⟨le_rfl, by rintro ⟨⟩⟩
        · cases hpinned
    · refine (phases_leave (g := { rest := input }) hs 1 le_rfl (.inr hallows)).mono fun found hfound => ?_
      exact fun g hg => ⟨hfound g hg, fun _ h => absurd h hmoves⟩
  rw [Scene.alternative]
  refine hphases.bind fun found hfound => ?_
  cases found with
  | none => rintro m ⟨⟩
  | some g =>
    intro m hm
    split at hm
    next hstarted =>
      cases hm
      exact ⟨(hfound g rfl).1, (hfound g rfl).2 hstarted⟩
    next => cases hm

theorem alternatives_leave (hs : s.Tight) {alts : List (List Phase)}
    (hallows : ∀ phs ∈ alts, G.allows (G.grade name) phs = true)
    (hmoves : name ∈ G.consuming → ∀ phs ∈ alts, G.moves phs = true) :
    (s.alternatives input alts).Meets (G.contract name input) fun found =>
      ∀ m ∈ found, G.Leaves name input m.rest := by
  induction alts with
  | nil => rintro m ⟨⟩
  | cons phs alts ih =>
    rw [List.forall_mem_cons] at hallows
    refine (alternative_leaves hs hallows.1).bind fun found hfound => ?_
    cases found with
    | none => exact ih hallows.2 fun hname phs hphs => hmoves hname phs (List.mem_cons_of_mem _ hphs)
    | some m =>
      rintro m' ⟨⟩
      exact ⟨(hfound m rfl).1, fun hname => (hfound m rfl).2 (hmoves hname phs List.mem_cons_self)⟩

/-- What the plan of a rule that keeps to the grading asks for and comes to. -/
theorem plan_meets {e : Table.Entry} (he : G.fits e = true) (whitespace : String) (depth : Nat) (input : List Char) :
    (e.plan whitespace depth input).Meets (G.contract e.rule.name input) fun found =>
      ∀ m ∈ found, G.Leaves e.rule.name input m.rest := by
  simp only [fits, Table.Entry.isTight, Bool.and_eq_true, Bool.or_eq_true, Bool.not_eq_true', List.all_eq_true,
    Option.isNone_iff_eq_none, decide_eq_true_eq] at he
  obtain ⟨⟨⟨⟨htight, hstrict⟩, -⟩, hallows⟩, hmoves⟩ := he
  refine (alternatives_leave ⟨htight, hstrict⟩ hallows fun hname => hmoves.resolve_left fun h => h hname).bind
    fun found hfound m hm => ?_
  obtain ⟨m', hm', rfl⟩ := Option.map_eq_some_iff.1 hm
  rw [Rule.collapse_rest]
  exact hfound m' hm'

end Grading

end Plans

/-- A plan comes to something where all it asks for is answered. -/
theorem Plan.Meets.exists_comesTo {α : Type} {p : Plan α} {k : Contract} {post : α → Prop}
    {answers : String → List Char → Option Match → Prop} (h : p.Meets k post)
    (hk : ∀ rule input, k.asks rule input → ∃ answer, answers rule input answer ∧ k.answers rule input answer) :
    ∃ value, p.ComesTo answers value ∧ post value := by
  induction p with
  | done value => exact ⟨value, rfl, h⟩
  | report event next ih => exact ih h
  | ask rule input next ih =>
    obtain ⟨answer, hanswer, hkeeps⟩ := hk rule input h.1
    obtain ⟨value, hvalue, hpost⟩ := ih answer (h.2 answer hkeeps)
    exact ⟨value, ⟨answer, hanswer, hvalue⟩, hpost⟩

namespace Table

/-- All rules of the table keep to the grading. -/
def Graded (t : Table) (G : Grading) : Bool := t.entries.all G.fits

/-- **Matching without the guard ends**, for every rule and every input. The induction is on the input left and, at
one place, on the grade of the rule. -/
theorem Graded.exists_ends {t : Table} {G : Grading} (h : t.Graded G = true) (name : String) (input : List Char) :
    ∃ found, t.Ends name input found ∧ ∀ m ∈ found, G.Leaves name input m.rest := by
  induction hlength : input.length using Nat.strongRecOn generalizing name input with
  | ind n ih =>
    induction hgrade : G.grade name using Nat.strongRecOn generalizing name input with
    | ind k ihGrade =>
      subst hlength hgrade
      cases he : t.entry? name with
      | none => exact ⟨none, ⟨1, _, unguarded?_undeclared he, rfl⟩, nofun⟩
      | some e =>
        obtain rfl := name_of_entry he
        have hfits := List.all_eq_true.1 h e (List.mem_of_find?_eq_some he)
        have hmeets := Grading.plan_meets hfits t.whitespace 0 input
        obtain ⟨found, hfound, hleaves⟩ := hmeets.exists_comesTo fun rule cs hasks => by
          rcases hasks with hlt | ⟨hle, hlower⟩
          · exact ih cs.length hlt rule cs rfl
          · rcases Nat.lt_or_eq_of_le hle with hlt | heq
            · exact ih cs.length hlt rule cs rfl
            · exact ihGrade (G.grade rule) hlower rule cs heq rfl
        exact ⟨found, .of_plan he hfound, hleaves⟩

end Table

end Grammarian
