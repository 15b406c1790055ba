import Grammarian.Proofs.Grammar.Validity
import Grammarian.Proofs.Parse.Frame
import Grammarian.Proofs.Parse.Outcome

/-!
# Rules within reach

A match asks for the rules that its own rule names, and these for the rules that they name. What a parse comes
to, its trace included, is therefore up to the rules within reach of the one it starts with. Neither the rules
around them nor the order of the rules has a part in it: `Parser.run_eq_of_sameReach`.
-/

namespace Grammarian

/-- The rules that a match of the rule may ask for: those its symbols refer to, the one it recovers at, and the
white space if it skips that. -/
def Rule.asks (whitespace : String) (r : Rule) : List String :=
  r.alternatives.flatten.filterMap Symbol.needs? ++ r.recoverTo.toList
    ++ if r.skipsWhitespace then [whitespace] else []

/-- The rules named `a` may ask for `b`, or for a rule that `b` is within reach of. -/
def Table.Reaches (rules : List Rule) (whitespace : String) : (a b : String) → Prop :=
  Relation.ReflTransGen fun a b => ∃ r ∈ rules, r.name = a ∧ b ∈ r.asks whitespace

/-- The two lists define the rules within reach of `start` alike. -/
def Table.SameReach (rules rules' : List Rule) (whitespace start : String) : Prop :=
  ∀ r : Rule, Reaches rules whitespace start r.name → (r ∈ rules ↔ r ∈ rules')

/-! ## What plans ask for -/

section Plans

variable {P : String → Prop}

theorem Target.plan_asksOnly {target : Target} (h : ∀ name, target = .rule name → P name) (input : List Char) :
    (target.plan input).AsksOnly P := by
  cases target with
  | rule name => exact ⟨h name rfl, fun _ _ => trivial⟩
  | endOfInput | literal value | pattern p => trivial

theorem skipWhitespace_asksOnly {whitespace : String} (h : P whitespace) (g : Growth) :
    (skipWhitespace whitespace g).AsksOnly P :=
  skipWhitespace_preserves (fun _ _ => h) (fun _ _ _ _ _ => trivial) trivial

namespace Scene

/-- The white space and the recovery target of the rule fulfil `P`. -/
structure Within (P : String → Prop) (s : Scene) : Prop where
  whitespace : s.rule.skipsWhitespace = true → P s.whitespace
  recovery : ∀ target, s.rule.recoverTo = some target → P target

variable {s : Scene}

theorem Within.reach (h : s.Within P) {target : Target} (htarget : ∀ name, target = .rule name → P name)
    (g : Growth) : (s.reach target g).AsksOnly P := by
  rw [Scene.reach]
  refine (target.plan_asksOnly htarget g.rest).bind fun got _ => ?_
  cases got with
  | some hit => trivial
  | none =>
    dsimp only
    split
    next hskips =>
      refine (skipWhitespace_asksOnly (h.whitespace hskips) g).bind fun g' _ => ?_
      exact (target.plan_asksOnly htarget g'.rest).bind fun got _ => trivial
    next => trivial

theorem asksOnly_resumption {target : String} (h : P target) (input : List Char) :
    (resumption target input).AsksOnly P := by
  induction input with
  | nil => exact ⟨h, fun _ _ => trivial⟩
  | cons c cs ih =>
    refine ⟨h, fun answer _ => ?_⟩
    dsimp only
    split
    · trivial
    · exact ih

theorem Within.recover (h : s.Within P) (input : List Char) : (s.recover input).AsksOnly P := by
  unfold Scene.recover
  split
  next target c cs hto =>
    have htarget := h.recovery target hto
    refine ⟨htarget, fun answer _ => ?_⟩
    dsimp only
    split
    · trivial
    · refine (asksOnly_resumption htarget cs).bind fun found _ => ?_
      cases found with
      | none => trivial
      | some rest => trivial
  next => trivial

theorem asksOnly_commit (number : Nat) (ph : Phase) (g : Growth) : (s.commit number ph g).AsksOnly P := by
  unfold commit
  split
  · trivial
  · trivial

theorem Within.afterMiss (h : s.Within P) (number : Nat) (ph : Phase) (again : Bool) (g : Growth)
    (hnext : ∀ m : Match, (s.afterHit number ph g (.node m)).AsksOnly P) :
    (s.afterMiss number ph again g).AsksOnly P := by
  unfold Scene.afterMiss
  split
  · trivial
  · split
    · trivial
    · split
      · trivial
      · split
        · trivial
        · refine (h.recover g.rest).bind fun recovered _ => ?_
          cases recovered with
          | none => trivial
          | some m => exact hnext m

/-- The induction is on the input left, which every further round makes shorter. -/
theorem Within.phase (h : s.Within P) {ph : Phase} (hph : ∀ name, ph.target = .rule name → P name)
    (number : Nat) (again : Bool) (g : Growth) : (s.phase number ph again g).AsksOnly P := by
  induction hlength : g.rest.length using Nat.strongRecOn generalizing again g with
  | ind n ih =>
    have hnext : ∀ (g' : Growth) (hit : Hit), g'.rest.length ≤ n → (s.afterHit number ph g' hit).AsksOnly P := by
      intro g' hit hle
      unfold afterHit
      split
      next hmore => exact ih _ (Nat.lt_of_lt_of_le (take_shortens hmore) hle) true _ rfl
      next => trivial
    rw [phase_eq]
    refine ((h.reach hph g).and_any (s.reach_shortens ph.target g)).bind ?_
    rintro ⟨g', got⟩ ⟨-, hle⟩
    replace hle : g'.rest.length ≤ n := hlength ▸ hle
    dsimp only
    split
    · trivial
    · cases got with
      | some hit =>
        refine ((s.asksOnly_commit number ph g').and_any (s.commit_keeps_rest number ph g')).bind ?_
        rintro g'' ⟨-, hrest⟩
        exact hnext g'' hit (hrest ▸ hle)
      | none => exact h.afterMiss number ph again g' fun m => hnext g' (.node m) hle

theorem Within.phases (h : s.Within P) {phs : List Phase}
    (hphs : ∀ ph ∈ phs, ∀ name, ph.target = .rule name → P name) (number : Nat) (g : Growth) :
    (s.phases number g phs).AsksOnly P := by
  induction phs generalizing number g with
  | nil => trivial
  | cons ph phs ih =>
    rw [List.forall_mem_cons] at hphs
    refine (h.phase hphs.1 number false g).bind fun e _ => ?_
    cases e with
    | next g' => exact ih hphs.2 (number + 1) g'
    | stop g' => trivial
    | fail => trivial

theorem Within.alternatives (h : s.Within P) (input : List Char) {alts : List (List Phase)}
    (halts : ∀ alt ∈ alts, ∀ ph ∈ alt, ∀ name, ph.target = .rule name → P name) :
    (s.alternatives input alts).AsksOnly P := by
  induction alts with
  | nil => trivial
  | cons alt alts ih =>
    rw [List.forall_mem_cons] at halts
    have halternative : (s.alternative input alt).AsksOnly P :=
      (h.phases halts.1 1 { rest := input }).bind fun found _ => by
        cases found with
        | none => trivial
        | some g => trivial
    refine halternative.bind fun found _ => ?_
    cases found with
    | some m => trivial
    | none => exact ih halts.2

end Scene

end Plans

/-! ## Tables -/

namespace Table

variable {rules rules' : List Rule} {whitespace start : String} {t t' : Table}

/-- A rule asks for nothing else. -/
theorem asksOnly_plan {e : Entry} (hphases : e.alternatives = e.rule.phases) (whitespace : String) (depth : Nat)
    (input : List Char) : (e.plan whitespace depth input).AsksOnly (· ∈ e.rule.asks whitespace) := by
  have hwithin : Scene.Within (· ∈ e.rule.asks whitespace) ⟨e.rule, whitespace, depth⟩ :=
    { whitespace := fun hskips => List.mem_append_right _ (by simp [hskips])
      recovery := fun target hto => List.mem_append_left _ (List.mem_append_right _ (Option.mem_toList.2 hto)) }
  refine (hwithin.alternatives input fun alt halt ph hph name hname => ?_).bind fun _ _ => trivial
  rw [hphases] at halt
  obtain ⟨symbols, hsymbols, rfl⟩ := List.mem_map.1 halt
  obtain ⟨s, hs, rfl⟩ := List.mem_map.1 hph
  have htarget : s.target = .rule name := hname
  have hneeds : s.needs? = some name := by rw [Symbol.needs?, htarget]
  refine List.mem_append_left _ (List.mem_append_left _ ?_)
  exact List.mem_filterMap.2 ⟨s, List.mem_flatten.2 ⟨symbols, hsymbols, hs⟩, hneeds⟩

/-- An accepted table keeps under a name the rule that was declared with it, settled. -/
theorem entry?_eq_some_iff (h : build rules whitespace = .ok t) {name : String} {e : Entry} :
    t.entry? name = some e ↔
      ∃ r ∈ rules, r.name = name ∧ e = ⟨r.settled whitespace, (r.settled whitespace).phases⟩ := by
  have hdistinct := nodup_of_build h
  rw [Table.rules, List.map_map] at hdistinct
  have hmem : ∀ e, e ∈ t.entries ↔ ∃ r ∈ rules, e = ⟨r.settled whitespace, (r.settled whitespace).phases⟩ := by
    obtain ⟨-, rfl⟩ := build_eq_ok_iff.1 h
    intro e
    simp [ofRules, eq_comm]
  constructor
  · intro he
    obtain ⟨r, hr, rfl⟩ := (hmem e).1 (List.mem_of_find?_eq_some he)
    exact ⟨r, hr, (r.settled_name whitespace).symm.trans (name_of_entry he), rfl⟩
  · rintro ⟨r, hr, rfl, rfl⟩
    have hin := (hmem _).2 ⟨r, hr, rfl⟩
    cases hfound : t.entry? r.name with
    | none => exact absurd (r.settled_name whitespace) (by simpa using List.find?_eq_none.1 hfound _ hin)
    | some e =>
      have hname := (name_of_entry hfound).trans (r.settled_name whitespace).symm
      exact congrArg some (List.inj_on_of_nodup_map hdistinct (List.mem_of_find?_eq_some hfound) hin hname)

theorem asks_settled_subset (whitespace : String) (r : Rule) :
    (r.settled whitespace).asks whitespace ⊆ r.asks whitespace := by
  rw [Rule.settled]
  split
  · simp [Rule.asks, Rule.skipsWhitespace]
  · exact List.Subset.refl _

/-- Names that lead to one another only hold all that is within reach of one of them. -/
theorem sameReach_of_closed (names : List String) (hstart : start ∈ names)
    (hclosed : ∀ r ∈ rules, r.name ∈ names → r.asks whitespace ⊆ names)
    (hsame : ∀ r : Rule, r.name ∈ names → (r ∈ rules ↔ r ∈ rules')) :
    SameReach rules rules' whitespace start := by
  have hwithin : ∀ name, Reaches rules whitespace start name → name ∈ names := by
    intro name hreach
    induction hreach with
    | refl => exact hstart
    | tail _ hstep ih =>
      obtain ⟨q, hq, rfl, hask⟩ := hstep
      exact hclosed q hq ih hask
  exact fun r hreach => hsame r (hwithin r.name hreach)

/-- Tables of lists that define the rules within reach alike agree on them. -/
theorem agreeOn_of_sameReach (h : build rules whitespace = .ok t) (h' : build rules' whitespace = .ok t')
    (hsame : SameReach rules rules' whitespace start) : AgreeOn (Reaches rules whitespace start) t t' where
  whitespace := by
    obtain ⟨-, rfl⟩ := build_eq_ok_iff.1 h
    obtain ⟨-, rfl⟩ := build_eq_ok_iff.1 h'
    rfl
  entry name hname := by
    refine Option.ext fun e => ?_
    rw [entry?_eq_some_iff h, entry?_eq_some_iff h']
    constructor
    · rintro ⟨r, hr, rfl, rfl⟩
      exact ⟨r, (hsame r hname).2 hr, rfl, rfl⟩
    · rintro ⟨r, hr, rfl, rfl⟩
      exact ⟨r, (hsame r hname).1 hr, rfl, rfl⟩
  closed name e depth input hname he := by
    obtain ⟨r, hr, rfl, rfl⟩ := (entry?_eq_some_iff h).1 he
    obtain ⟨-, rfl⟩ := build_eq_ok_iff.1 h
    refine (asksOnly_plan rfl whitespace depth input).mono fun asked hasked => ?_
    exact hname.tail ⟨r, hr, rfl, asks_settled_subset whitespace r hasked⟩

end Table

namespace Parser

variable {rules rules' : List Rule} {options : Options} {p p' : Parser} {start : String}

theorem parse_undeclared (h : Parser.build rules options = .ok p) {name : String} (hname : name ∉ rules.map (·.name))
    (input : String) : p.parse input (some name) = .error (.unknownRule name) := by
  have hcontains : p.table.contains name = false := by
    rw [Table.contains, Option.isSome_eq_false_iff, Option.isNone_iff_eq_none, Option.eq_none_iff_forall_ne_some]
    intro e he
    obtain ⟨r, hr, hsame, -⟩ := (Table.entry?_eq_some_iff (build_eq_ok_iff.1 h).1).1 he
    exact hname (List.mem_map.2 ⟨r, hr, hsame⟩)
  simp [parse, run, hcontains]

/-- Parses from a rule come to the same, trace included, with all lists of rules that define what is within
reach of it alike. -/
theorem run_eq_of_sameReach (h : Parser.build rules options = .ok p) (h' : Parser.build rules' options = .ok p')
    (hsame : Table.SameReach rules rules' options.whitespaceRule start) (input : String) :
    p.run input (some start) = p'.run input (some start) := by
  obtain ⟨htable, hoptions⟩ := build_eq_ok_iff.1 h
  obtain ⟨htable', hoptions'⟩ := build_eq_ok_iff.1 h'
  have hagree := Table.agreeOn_of_sameReach htable htable' hsame
  have hcontains : p'.table.contains start = p.table.contains start := by
    rw [Table.contains, Table.contains, hagree.entry start .refl]
  have hmatch : p'.table.matchRule options.maxDepth start input.toList =
      p.table.matchRule options.maxDepth start input.toList :=
    Table.call_congr hagree .refl (Nat.lt_succ_of_le (p.table.card_idle_le _ []))
      (Nat.lt_succ_of_le (p'.table.card_idle_le _ [])) fun _ _ => Iff.rfl
  simp only [run, Option.getD_some, hoptions, hoptions', hcontains, hmatch]

/-- Only the rules within reach matter, and not their order: with any other rules around them, declared in any
order, a parse from `start` gives the same tree or the same failure. -/
theorem parse_eq_of_sameReach (h : Parser.build rules options = .ok p)
    (h' : Parser.build rules' options = .ok p')
    (hsame : Table.SameReach rules rules' options.whitespaceRule start) (input : String) :
    p.parse input (some start) = p'.parse input (some start) :=
  congrArg Traced.value (run_eq_of_sameReach h h' hsame input)

/-- Sums with white space in them, which recover at a semicolon. -/
def sumRules : List Rule :=
  [{ name := "Sum", alternatives := [[.ofText "Term", .ofText "'+'", .ofText "Term"]],
     recoverTo := some "End", implicitWhitespace := some true },
   { name := "Term", alternatives := [[.ofText "'1'"]] },
   { name := "End", alternatives := [[.ofText "';'"]] },
   { name := "WS", alternatives := [[.ofText "' '"]] }]

/-- The rules for sums in reverse order, behind one that is no part of them. -/
def negationRules : List Rule :=
  { name := "Negation", alternatives := [[.ofText "'-'", .ofText "Sum"]] } :: sumRules.reverse

/-- Sums are read alike with both lists. -/
theorem sumRules_reverse_parse :
    ∃ p p' : Parser, Parser.build sumRules {} = .ok p ∧ Parser.build negationRules {} = .ok p' ∧
      p.parse "1 + 1" (some "Sum") = p'.parse "1 + 1" (some "Sum") := by
  have hordered : ∀ rules ∈ [sumRules, negationRules],
      Table.WellOrdered ["Sum", "Term"] (rules.map (Rule.settled "WS")) "WS" := by decide +kernel
  have hbuild : ∀ rules ∈ [sumRules, negationRules],
      Parser.build rules {} = .ok ⟨.ofRules rules "WS", {}⟩ := fun rules hrules =>
    build_eq_ok_iff.2 ⟨(hordered rules hrules).build, rfl⟩
  have hsum := hbuild sumRules (by simp)
  have hnegation := hbuild negationRules (by simp)
  refine ⟨_, _, hsum, hnegation, parse_eq_of_sameReach hsum hnegation ?_ "1 + 1"⟩
  refine Table.sameReach_of_closed ["Sum", "Term", "End", "WS"] (by decide) (by decide +kernel) ?_
  intro r hr
  rw [negationRules, List.mem_cons, List.mem_reverse]
  refine ⟨.inr, fun h => h.resolve_left ?_⟩
  rintro rfl
  revert hr
  decide

end Parser

end Grammarian
