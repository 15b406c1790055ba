import Grammarian.Proofs.Parse.Frame
import Grammarian.Proofs.Parse.Spelling

/-!
# What matches are made of

Where matching without the guard ends from every rule on every input, it comes to one thing only, so the rules of
reading can be read backwards: a match tells which alternative was taken and how its steps passed.
-/

namespace Grammarian

/-- Plans that ask for the same rules with the same answers come to the same. -/
theorem Plan.AsksOnly.run?_congr {α : Type} {P : String → Prop} {p : Plan α}
    {answers answers' : String → List Char → Option (Traced (Option Match))} (h : p.AsksOnly P)
    (heq : ∀ rule input, P rule → answers' rule input = answers rule input) : p.run? answers' = p.run? answers := by
  induction p with
  | done value => rfl
  | report event next ih => simp only [run?, ih h]
  | ask rule input next ih =>
    have hrule : P rule := h.1
    simp only [run?, heq rule input hrule]
    cases answers rule input with
    | none => rfl
    | some a => simp only [ih a.value (h.2 a.value trivial)]

namespace Table

variable {t t' : Table} {name : String} {input : List Char} {found found' : Option Match}

/-- Tables that agree on the rules that can be asked for find the same. -/
theorem AgreeOn.unguarded?_eq {P : String → Prop} (h : AgreeOn P t t') (hname : P name) (fuel depth : Nat)
    (input : List Char) : t'.unguarded? fuel depth name input = t.unguarded? fuel depth name input := by
  induction fuel generalizing depth name input with
  | zero => rfl
  | succ fuel ih =>
    have hentry := h.entry name hname
    cases he : t.entry? name with
    | none => rw [unguarded?_undeclared he, unguarded?_undeclared (hentry.trans he)]
    | some e =>
      rw [unguarded?_declared he, unguarded?_declared (hentry.trans he), h.whitespace,
        (h.closed name e depth input hname he).run?_congr fun rule s hrule => ih hrule (depth + 1) s]

/-- What a rule comes to in one table, it comes to in a table that agrees about it. -/
theorem AgreeOn.ends {P : String → Prop} (h : AgreeOn P t t') (hname : P name) (hends : t.Ends name input found) :
    t'.Ends name input found := by
  obtain ⟨fuel, r, hr, hvalue⟩ := hends
  exact ⟨fuel, r, (h.unguarded?_eq hname fuel 0 input).trans hr, hvalue⟩

/-- Matching comes to one thing. -/
theorem Ends.unique (h : t.Ends name input found) (h' : t.Ends name input found') : found = found' :=
  h.matchRule_value.symm.trans h'.matchRule_value

/-- Matching ends, from every rule and on every input. -/
def Settles (t : Table) : Prop := ∀ name input, ∃ found, t.Ends name input found

end Table

variable {t t' : Table} {name : String} {target : Target} {input rest : List Char} {ds : List Draft} {started : Bool}

/-! ## Targets and steps -/

namespace Target

variable {got got' : Option Hit}

/-- A rule is answered with what its call comes to. -/
theorem exists_of_answers_rule (h : (Target.rule name).Answers t input got) :
    ∃ found, t.Ends name input found ∧ got = found.map .node := by
  obtain ⟨found, hfound, rfl⟩ := h
  exact ⟨found, hfound, rfl⟩

theorem ends_of_answers_some {hit : Hit} (h : (Target.rule name).Answers t input (some hit)) :
    ∃ m, t.Ends name input (some m) ∧ hit = .node m := by
  obtain ⟨found, hfound, hgot⟩ := exists_of_answers_rule h
  obtain ⟨m, rfl, rfl⟩ := Option.map_eq_some_iff.1 hgot.symm
  exact ⟨m, hfound, rfl⟩

theorem ends_of_answers_none (h : (Target.rule name).Answers t input none) : t.Ends name input none := by
  obtain ⟨found, hfound, hgot⟩ := exists_of_answers_rule h
  obtain rfl := Option.map_eq_none_iff.1 hgot.symm
  exact hfound

/-- A literal that matches stands at the front of the input. -/
theorem text_of_answers_literal {value : List Char} {hit : Hit} (hvalue : value ≠ [])
    (h : (Target.literal value).Answers t input (some hit)) : ∃ rest, hit = .text rest ∧ input = value ++ rest := by
  have hempty : ¬ value.isEmpty = true := by simpa using hvalue
  simp only [Answers, plan, Plan.ComesTo, if_neg hempty, Option.map_eq_some_iff] at h
  obtain ⟨rest, hrest, rfl⟩ := h
  exact ⟨rest, rfl, (List.append_eq_of_isPrefixOf?_eq_some hrest).symm⟩

/-- In a table that settles, every target is answered everywhere. -/
theorem exists_answers (h : t.Settles) (target : Target) (input : List Char) :
    ∃ got, target.Answers t input got := by
  cases target with
  | rule name =>
    obtain ⟨found, hfound⟩ := h name input
    exact ⟨_, answers_rule hfound⟩
  | literal value => exact ⟨_, rfl⟩
  | pattern p => exact ⟨_, rfl⟩
  | endOfInput => exact ⟨_, rfl⟩

/-- A target that is there is taken in rounds. The induction is on the input left. -/
theorem exists_rounds (h : t.Settles) {hit : Hit} (hhit : target.Answers t input (some hit)) :
    ∃ ds rest, target.Rounds t input ds rest := by
  induction hlength : input.length using Nat.strongRecOn generalizing input hit with
  | ind n ih =>
    subst hlength
    by_cases hend : hit.rest input = [] ∨ input.length ≤ (hit.rest input).length
    · exact ⟨_, _, .last hhit (hend.imp_right .inl)⟩
    · rw [not_or, Nat.not_le] at hend
      obtain ⟨got, hgot⟩ := exists_answers h target (hit.rest input)
      cases got with
      | none => exact ⟨_, _, .last hhit (.inr (.inr hgot))⟩
      | some next =>
        obtain ⟨ds, rest, hmore⟩ := ih _ hend.2 hgot rfl
        exact ⟨_, _, .more hhit hend.1 hend.2 hmore⟩

/-- Where targets have the same answers, they are taken in the same rounds. -/
theorem Rounds.transfer (h : target.Rounds t input ds rest)
    (hsame : ∀ input got, target.Answers t input got → target.Answers t' input got) :
    target.Rounds t' input ds rest := by
  induction h with
  | last hhit hend => exact .last (hsame _ _ hhit) (hend.imp_right (.imp_right (hsame _ _)))
  | more hhit hne hlt _ ih => exact .more (hsame _ _ hhit) hne hlt ih

/-- Rounds begin with a hit. -/
theorem Rounds.first (h : target.Rounds t input ds rest) : ∃ hit, target.Answers t input (some hit) := by
  cases h with
  | last h _ => exact ⟨_, h⟩
  | more h _ _ _ => exact ⟨_, h⟩

/-- What a target that is no rule answers, whatever the table. -/
theorem exists_plan_eq_done (htarget : ∀ name, target ≠ .rule name) (input : List Char) :
    ∃ got, target.plan input = .done got := by
  cases target with
  | rule name => exact absurd rfl (htarget name)
  | literal value => exact ⟨_, rfl⟩
  | pattern p => exact ⟨_, rfl⟩
  | endOfInput => exact ⟨_, rfl⟩

/-- A target that is no rule answers alike in every table. -/
theorem answers_transfer (htarget : ∀ name, target ≠ .rule name) (h : target.Answers t input got) :
    target.Answers t' input got := by
  obtain ⟨value, hvalue⟩ := exists_plan_eq_done htarget input
  rw [Answers, hvalue, Plan.ComesTo] at h ⊢
  exact h

/-- The end of the input matches there only. -/
theorem nil_of_answers_endOfInput {hit : Hit} (h : Target.endOfInput.Answers t input (some hit)) :
    input = [] ∧ hit.rest input = [] := by
  have hend : (if input.isEmpty then some (Hit.node .endOfInput) else none) = some hit := h
  split at hend
  next hempty =>
    cases hend
    exact ⟨List.isEmpty_iff.1 hempty, rfl⟩
  next => cases hend

/-- Where no rule leaves more than there was, no target does. -/
theorem length_le_of_answers (hleaves : ∀ name input m, t.Ends name input (some m) → m.rest.length ≤ input.length)
    {hit : Hit} (h : target.Answers t input (some hit)) : (hit.rest input).length ≤ input.length := by
  cases target with
  | rule name =>
    obtain ⟨m, hm, rfl⟩ := ends_of_answers_some h
    exact hleaves name input m hm
  | literal value =>
    by_cases hvalue : value = []
    · subst hvalue
      cases h
      exact le_rfl
    · obtain ⟨rest, rfl, rfl⟩ := text_of_answers_literal hvalue h
      rw [List.length_append]
      exact Nat.le_add_left _ _
  | pattern p =>
    obtain ⟨rest, hrest, rfl⟩ := Option.map_eq_some_iff.1 h
    exact (Pattern.match?_suffix hrest).length_le
  | endOfInput =>
    rw [(nil_of_answers_endOfInput h).2]
    exact Nat.zero_le _

/-- Rounds that consume go on to where there is nothing or no target. -/
theorem Rounds.ends (h : target.Rounds t input ds rest)
    (hless : ∀ input hit, target.Answers t input (some hit) → (hit.rest input).length < input.length) :
    rest = [] ∨ target.Answers t rest none := by
  induction h with
  | last hhit hend => exact hend.imp_right (Or.resolve_left · (Nat.not_le.2 (hless _ _ hhit)))
  | more _ _ _ _ ih => exact ih

end Target

namespace Step

variable {s : Step} {steps : List Step} {alts : List (List Step)}

/-- A step passes alike where its target is answered alike. -/
theorem Passes.transfer (h : s.Passes t input ds rest started)
    (hsame : ∀ input got, s.target.Answers t input got → s.target.Answers t' input got) :
    s.Passes t' input ds rest started := by
  cases h with
  | once hlook hrep h => exact .once hlook hrep (hsame _ _ h)
  | rounds hlook hrep h => exact .rounds hlook hrep (h.transfer hsame)
  | without hlook hrep h => exact .without hlook hrep (hsame _ _ h)

/-- No step leaves more than it found. -/
theorem Passes.length_le (h : s.Passes t input ds rest started)
    (hleaves : ∀ name input m, t.Ends name input (some m) → m.rest.length ≤ input.length) :
    rest.length ≤ input.length := by
  cases h with
  | once _ _ h => exact Target.length_le_of_answers hleaves h
  | rounds _ _ h =>
    clear * - h hleaves
    induction h with
    | last h _ => exact Target.length_le_of_answers hleaves h
    | more _ _ hlt _ ih => exact ih.trans hlt.le
  | without => exact le_rfl

theorem Fails.transfer (h : s.Fails t input)
    (hsame : ∀ input got, s.target.Answers t input got → s.target.Answers t' input got) : s.Fails t' input :=
  ⟨h.1, h.2.1, hsame _ _ h.2.2⟩

/-- Steps pass alike where their targets are answered alike. -/
theorem PassAll.transfer (h : PassAll t steps input ds rest started)
    (hsame : ∀ s ∈ steps, ∀ input got, s.target.Answers t input got → s.target.Answers t' input got) :
    PassAll t' steps input ds rest started := by
  induction h with
  | nil input => exact .nil input
  | cons h _ ih =>
    rw [List.forall_mem_cons] at hsame
    exact .cons (h.transfer hsame.1) (ih hsame.2)

theorem passes_one {hit : Hit} (h : target.Answers t input (some hit)) :
    (one target).Passes t input hit.adds (hit.rest input) true := .once rfl (.inl rfl) h

theorem passes_optional {hit : Hit} (h : target.Answers t input (some hit)) :
    (optional target).Passes t input hit.adds (hit.rest input) true := .once rfl (.inr rfl) h

theorem passes_rule {m : Match} (h : t.Ends name input (some m)) :
    (one (.rule name)).Passes t input m.additions m.rest true := passes_one (Target.answers_rule h)

/-- A step that is needed once passes by one hit. -/
theorem hit_of_passes_one (h : (one target).Passes t input ds rest started) :
    ∃ hit, target.Answers t input (some hit) ∧ ds = hit.adds ∧ rest = hit.rest input ∧ started = true := by
  cases h with
  | once hlook hrep h => exact ⟨_, h, rfl, rfl, rfl⟩
  | rounds hlook hrep h =>
    have hrep : Repetition.once = .zeroOrMore ∨ Repetition.once = .oneOrMore := hrep
    rcases hrep with hrep | hrep <;> cases hrep
  | without hlook hrep h =>
    have hrep : Repetition.once = .optional ∨ Repetition.once = .zeroOrMore := hrep
    rcases hrep with hrep | hrep <;> cases hrep

/-- An optional step passes by one hit, or by none where its target is not there. -/
theorem hit_of_passes_optional (h : (optional target).Passes t input ds rest started) :
    (∃ hit, target.Answers t input (some hit) ∧ ds = hit.adds ∧ rest = hit.rest input ∧ started = true) ∨
      target.Answers t input none ∧ ds = [] ∧ rest = input ∧ started = false := by
  cases h with
  | once hlook hrep h => exact .inl ⟨_, h, rfl, rfl, rfl⟩
  | rounds hlook hrep h =>
    have hrep : Repetition.optional = .zeroOrMore ∨ Repetition.optional = .oneOrMore := hrep
    rcases hrep with hrep | hrep <;> cases hrep
  | without hlook hrep h => exact .inr ⟨h, rfl, rfl, rfl⟩

theorem exists_of_passes_one (h : (one (.rule name)).Passes t input ds rest started) :
    ∃ m, t.Ends name input (some m) ∧ rest = m.rest := by
  obtain ⟨hit, hhit, -, rfl, -⟩ := hit_of_passes_one h
  obtain ⟨m, hm, rfl⟩ := Target.ends_of_answers_some hhit
  exact ⟨m, hm, rfl⟩

/-- A step that may do without a rule that does not match stays where it is. -/
theorem rest_of_passes_optional (hnone : t.Ends name input none)
    (h : (optional (.rule name)).Passes t input ds rest started) : rest = input := by
  rcases hit_of_passes_optional h with ⟨hit, hhit, -⟩ | ⟨-, -, hrest, -⟩
  · obtain ⟨m, hm, -⟩ := Target.ends_of_answers_some hhit
    cases hnone.unique hm
  · exact hrest

/-- A step that may repeat passes in rounds, or by none where its target is not there. -/
theorem rounds_of_passes_star (h : (star target).Passes t input ds rest started) :
    target.Rounds t input ds rest ∧ started = true ∨
      target.Answers t input none ∧ ds = [] ∧ rest = input ∧ started = false := by
  cases h with
  | once hlook hrep h =>
    have hrep : Repetition.zeroOrMore = .once ∨ Repetition.zeroOrMore = .optional := hrep
    rcases hrep with hrep | hrep <;> cases hrep
  | rounds hlook hrep h => exact .inl ⟨h, rfl⟩
  | without hlook hrep h => exact .inr ⟨h, rfl, rfl, rfl⟩

/-- A step that repeats passes in rounds. -/
theorem rounds_of_passes_plus (h : (plus target).Passes t input ds rest started) : target.Rounds t input ds rest := by
  cases h with
  | once hlook hrep h =>
    have hrep : Repetition.oneOrMore = .once ∨ Repetition.oneOrMore = .optional := hrep
    rcases hrep with hrep | hrep <;> cases hrep
  | rounds hlook hrep h => exact h
  | without hlook hrep h =>
    have hrep : Repetition.oneOrMore = .optional ∨ Repetition.oneOrMore = .zeroOrMore := hrep
    rcases hrep with hrep | hrep <;> cases hrep

/-- A repeated step with a rule that matches once. -/
theorem passes_star_once {m : Match} (hm : t.Ends name input (some m)) (hend : m.rest = [] ∨ t.Ends name m.rest none) :
    (star (.rule name)).Passes t input m.additions m.rest true :=
  .rounds rfl (.inl rfl) (.last (Target.answers_rule hm) (hend.imp_right fun hnone => .inr (Target.answers_rule hnone)))

theorem exists_of_passes_star (h : (star (.rule name)).Passes t input ds rest true) :
    ∃ m, t.Ends name input (some m) := by
  rcases rounds_of_passes_star h with ⟨hrounds, -⟩ | ⟨-, -, -, hfalse⟩
  · obtain ⟨hit, hhit⟩ := hrounds.first
    obtain ⟨m, hm, -⟩ := Target.ends_of_answers_some hhit
    exact ⟨m, hm⟩
  · cases hfalse

/-- A repeated step with a rule that does not match stays where it is. -/
theorem rest_of_passes_star (hnone : t.Ends name input none)
    (h : (star (.rule name)).Passes t input ds rest started) : rest = input := by
  rcases rounds_of_passes_star h with ⟨hrounds, -⟩ | ⟨-, -, hrest, -⟩
  · obtain ⟨hit, hhit⟩ := hrounds.first
    obtain ⟨m, hm, -⟩ := Target.ends_of_answers_some hhit
    cases hnone.unique hm
  · exact hrest

/-- Where a repeated step has come to, there is nothing or no target for it. -/
theorem end_of_passes_star (h : (star target).Passes t input ds rest started)
    (hless : ∀ input hit, target.Answers t input (some hit) → (hit.rest input).length < input.length) :
    rest = [] ∨ target.Answers t rest none := by
  rcases rounds_of_passes_star h with ⟨hrounds, -⟩ | ⟨hnone, -, rfl, -⟩
  · exact hrounds.ends hless
  · exact .inr hnone

/-- Steps pass one after another. -/
theorem passAll_cons (h : PassAll t (s :: steps) input ds rest started) :
    ∃ front mid first back more, s.Passes t input front mid first ∧ PassAll t steps mid back rest more ∧
      ds = front ++ back ∧ started = (first || more) := by
  cases h with
  | cons h hs => exact ⟨_, _, _, _, _, h, hs, rfl, rfl⟩

theorem passAll_nil (h : PassAll t [] input ds rest started) : ds = [] ∧ rest = input ∧ started = false := by
  cases h with
  | nil => exact ⟨rfl, rfl, rfl⟩

/-- In a table that settles, a step without look-ahead passes or fails. -/
theorem passes_or_fails (h : t.Settles) (hlook : s.lookahead = .none) (input : List Char) :
    (∃ ds rest started, s.Passes t input ds rest started) ∨ s.Fails t input := by
  obtain ⟨got, hgot⟩ := Target.exists_answers h s.target input
  cases got with
  | none =>
    cases hrep : s.repetition with
    | once => exact .inr ⟨hlook, .inl hrep, hgot⟩
    | oneOrMore => exact .inr ⟨hlook, .inr hrep, hgot⟩
    | optional => exact .inl ⟨_, _, _, .without hlook (.inl hrep) hgot⟩
    | zeroOrMore => exact .inl ⟨_, _, _, .without hlook (.inr hrep) hgot⟩
  | some hit =>
    obtain ⟨ds, rest, hrounds⟩ := Target.exists_rounds h hgot
    cases hrep : s.repetition with
    | once => exact .inl ⟨_, _, _, .once hlook (.inl hrep) hgot⟩
    | oneOrMore => exact .inl ⟨_, _, _, .rounds hlook (.inr hrep) hrounds⟩
    | optional => exact .inl ⟨_, _, _, .once hlook (.inr hrep) hgot⟩
    | zeroOrMore => exact .inl ⟨_, _, _, .rounds hlook (.inl hrep) hrounds⟩

/-- So do steps: all pass, or one of them fails. -/
theorem passAll_or_failsAt (h : t.Settles) (hlook : ∀ s ∈ steps, s.lookahead = .none) (input : List Char) :
    (∃ ds rest started, PassAll t steps input ds rest started) ∨ FailsAt t steps input := by
  induction steps generalizing input with
  | nil => exact .inl ⟨_, _, _, .nil input⟩
  | cons s steps ih =>
    rw [List.forall_mem_cons] at hlook
    rcases passes_or_fails h hlook.1 input with ⟨ds, mid, started, hpasses⟩ | hfails
    · rcases ih hlook.2 mid with ⟨es, rest, started', hall⟩ | hfails
      · exact .inl ⟨_, _, _, .cons hpasses hall⟩
      · exact .inr (.later hpasses hfails)
    · exact .inr (.here hfails)

/-- One of the alternatives is chosen, or all of them are rejected. -/
theorem chooses_or_rejected (h : t.Settles) (hlook : ∀ alt ∈ alts, ∀ s ∈ alt, s.lookahead = .none)
    (input : List Char) : (∃ ds rest, Chooses t alts input ds rest) ∨ ∀ alt ∈ alts, Rejected t alt input := by
  induction alts with
  | nil => exact .inr nofun
  | cons alt alts ih =>
    rw [List.forall_mem_cons] at hlook
    have hmore : Rejected t alt input → (∃ ds rest, Chooses t (alt :: alts) input ds rest) ∨
        ∀ a ∈ alt :: alts, Rejected t a input := fun hrejected =>
      (ih hlook.2).imp (fun ⟨ds, rest, hchooses⟩ => ⟨ds, rest, .next hrejected hchooses⟩)
        fun hall => List.forall_mem_cons.2 ⟨hrejected, hall⟩
    rcases passAll_or_failsAt h hlook.1 input with ⟨ds, rest, started, hall⟩ | hfails
    · cases started with
      | true => exact .inl ⟨ds, rest, .first hall⟩
      | false => exact hmore (.inr ⟨ds, rest, hall⟩)
    · exact hmore (.inl hfails)

/-- Alternatives that are rejected are passed over. -/
theorem Chooses.behind {front : List (List Step)} (h : Chooses t alts input ds rest)
    (hfront : ∀ alt ∈ front, Rejected t alt input) : Chooses t (front ++ alts) input ds rest := by
  induction front with
  | nil => exact h
  | cons alt front ih =>
    rw [List.forall_mem_cons] at hfront
    exact .next hfront.1 (ih hfront.2)

/-- One alternative that is chosen. -/
theorem passAll_of_chooses (h : Chooses t [steps] input ds rest) : PassAll t steps input ds rest true := by
  cases h with
  | first h => exact h
  | next _ h => cases h

theorem none_of_rejected_one (h : Rejected t [one target] input) : target.Answers t input none := by
  rcases h with hfails | ⟨ds, rest, hall⟩
  · cases hfails with
    | here h => exact h.2.2
    | later _ h => cases h
  · obtain ⟨front, mid, first, back, more, hone, hnil, rfl, hstarted⟩ := passAll_cons hall
    obtain ⟨-, -, rfl⟩ := passAll_nil hnil
    obtain ⟨hit, -, -, -, rfl⟩ := hit_of_passes_one hone
    cases hstarted

/-! ## Alternatives that are one rule each -/

def oneRule (name : String) : List Step := [one (.rule name)]

/-- Where each alternative is one rule, the first rule that matches is chosen. -/
theorem exists_of_chooses_oneRule {names : List String} (h : Chooses t (names.map oneRule) input ds rest) :
    ∃ front name back m, names = front ++ name :: back ∧ (∀ k ∈ front, t.Ends k input none) ∧
      t.Ends name input (some m) ∧ ds = m.additions ∧ rest = m.rest := by
  induction names with
  | nil => cases h
  | cons name names ih =>
    cases h with
    | first h =>
      obtain ⟨front, mid, first, back, more, hone, hnil, rfl, -⟩ := passAll_cons h
      obtain ⟨rfl, rfl, -⟩ := passAll_nil hnil
      obtain ⟨hit, hhit, rfl, rfl, -⟩ := hit_of_passes_one hone
      obtain ⟨m, hm, rfl⟩ := Target.ends_of_answers_some hhit
      exact ⟨[], name, names, m, rfl, nofun, hm, List.append_nil _, rfl⟩
    | next hnot h =>
      obtain ⟨front, found, back, m, rfl, hfront, hm, rfl, rfl⟩ := ih h
      have hnone := Target.ends_of_answers_none (none_of_rejected_one hnot)
      exact ⟨name :: front, found, back, m, rfl, List.forall_mem_cons.2 ⟨hnone, hfront⟩, hm, rfl, rfl⟩

theorem chooses_oneRule {front back : List String} {m : Match} (hfront : ∀ k ∈ front, t.Ends k input none)
    (hm : t.Ends name input (some m)) :
    Chooses t ((front ++ name :: back).map oneRule) input m.additions m.rest := by
  induction front with
  | nil =>
    have hall := PassAll.cons (passes_rule hm) (.nil _)
    rw [List.append_nil, Bool.or_false] at hall
    exact .first hall
  | cons k front ih =>
    rw [List.forall_mem_cons] at hfront
    exact .next (rejected_of_none (Target.answers_rule hfront.1)) (ih hfront.2)

end Step

/-! ## Rules -/

namespace Table

variable {fragment : Bool} {alts : List (List Step)}

/-- None of the steps looks ahead. -/
def takesAll (alts : List (List Step)) : Bool := alts.all (·.all (·.lookahead = .none))

/-- Steps that take what they match do not look ahead. -/
theorem lookahead_of_takesAll (h : takesAll alts = true) : ∀ alt ∈ alts, ∀ s ∈ alt, s.lookahead = .none := by
  simpa [takesAll] using h

/-- A match tells which steps have passed. -/
theorem Ends.chooses (h : t.Settles) (hrule : t.declares name fragment alts = true) (htakes : takesAll alts = true)
    {m : Match} (hm : t.Ends name input (some m)) : ∃ ds, Step.Chooses t alts input ds m.rest ∧
      m = ⟨⟨name, none, input.length, m.rest.length, ds⟩, fragment, m.rest⟩ := by
  rcases Step.chooses_or_rejected h (lookahead_of_takesAll htakes) input with ⟨ds, rest, hchooses⟩ | hrejected
  · have hsame := Option.some.inj (hm.unique (.of_chooses hrule hchooses))
    subst hsame
    exact ⟨ds, hchooses, rfl⟩
  · cases hm.unique (.of_rejected hrule hrejected)

end Table

end Grammarian
