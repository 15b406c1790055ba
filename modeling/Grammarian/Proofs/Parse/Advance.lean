import Grammarian.Proofs.Grammar.Validity
import Grammarian.Proofs.Parse.Journal
import Grammarian.Proofs.Text.Bytes

/-!
# Rules that consume at the front

Where every alternative begins with something that consumes input, a rule calls others at its own place only
by way of its first phase, and the check of first symbols knows of all such calls. Calls in progress at one
place then follow one another in the order of the rules' first symbols, which has no circles: the guard has
nothing to fail. One lemma says what a plan asks for and comes to, and the run of a call follows from it.
-/

namespace Grammarian

/-- A match of the symbol consumes something, provided that a match of a rule does. -/
def Symbol.ConsumesFirst : Symbol → Prop
  | literal value => value ≠ ""
  | pattern p => p.source ≠ ""
  | reference r => r.lookahead = .none ∧ r.isOptional = false ∧
    if r.isLiteral then Literal.decode r.name ≠ "" else r.name ≠ Grammarian.endOfInput

instance : DecidablePred Symbol.ConsumesFirst
  | .literal value => inferInstanceAs (Decidable (value ≠ ""))
  | .pattern p => inferInstanceAs (Decidable (p.source ≠ ""))
  | .reference r => inferInstanceAs (Decidable (r.lookahead = .none ∧ r.isOptional = false ∧
      if r.isLiteral then Literal.decode r.name ≠ "" else r.name ≠ Grammarian.endOfInput))

/-- Neither white space nor input in the way of recovery is skipped, and every alternative begins with
something that consumes. -/
structure Table.ConsumesFirst (t : Table) : Prop where
  tight : ∀ r ∈ t.rules, r.implicitWhitespace ≠ some true
  strict : ∀ r ∈ t.rules, r.recoverTo = none
  first : ∀ r ∈ t.rules, ∀ alt ∈ r.alternatives, ∀ s ∈ alt.head?, s.ConsumesFirst

/-- `rest` is what is left of `input` when something is consumed. -/
def IsAhead (input rest : List Char) : Prop := rest <:+ input ∧ rest.length < input.length

theorem IsAhead.of_suffix {input rest rest' : List Char} (h : IsAhead input rest)
    (hsuffix : rest' <:+ rest) : IsAhead input rest' :=
  ⟨hsuffix.trans h.1, Nat.lt_of_le_of_lt hsuffix.length_le h.2⟩

/-- A match that is taken by a pattern with a source leaves less. -/
theorem Pattern.match?_isAhead {p : Pattern} {input rest : List Char} (hsource : p.source ≠ "")
    (h : p.match? input = some rest) : IsAhead input rest := by
  have hsuffix := match?_suffix h
  refine ⟨hsuffix, Nat.lt_of_le_of_ne hsuffix.length_le ?_⟩
  intro hlength
  unfold match? at h
  split at h
  next r hr =>
    split at h
    next => cases h
    next hnot =>
      cases h
      exact hnot ⟨hlength, hsource⟩
  next => cases h

/-- While a rule of the name `name` is matched at the front of `input`, others are asked for further on, or
at the front when the rule begins with them. Their matches consume something. -/
def Contract.ahead (t : Table) (name : String) (input : List Char) : Contract where
  asks rule s := IsAhead input s ∨ s = input ∧ Table.StartsWith t.rules name rule
  answers _ s answer := ∀ m ∈ answer, IsAhead s m.rest

/-- A rule is matched at the front of `input` with nothing skipped, neither white space nor input in the way
of recovery, and under a contract that allows every question further on. -/
structure Scene.Forward (s : Scene) (k : Contract) (input : List Char) : Prop where
  tight : s.rule.implicitWhitespace ≠ some true
  strict : s.rule.recoverTo = none
  asks : ∀ rule s, IsAhead input s → k.asks rule s
  answers : ∀ rule s answer, k.answers rule s answer → ∀ m ∈ answer, IsAhead s m.rest

section Plans

variable {k : Contract} {input : List Char} {s : Scene} {g : Growth}

/-- The end of a phase leaves less than all of the input, if it leaves anything. -/
def Scene.PhaseEnd.IsAhead (input : List Char) : PhaseEnd → Prop
  | next g | stop g => Grammarian.IsAhead input g.rest
  | fail => True

/-- Further on than the front of the input, targets match suffixes and leave suffixes. -/
theorem Scene.Forward.plan_ahead (h : s.Forward k input) (target : Target) {cs : List Char}
    (hcs : IsAhead input cs) : (target.plan cs).Meets k fun got => ∀ hit ∈ got, hit.rest cs <:+ cs := by
  cases target with
  | rule name =>
    refine ⟨h.asks name cs hcs, fun answer hanswer => ?_⟩
    intro hit hhit
    obtain ⟨m, hm, rfl⟩ := Option.map_eq_some_iff.1 hhit
    exact (h.answers name cs answer hanswer m hm).1
  | endOfInput =>
    intro hit hhit
    split at hhit
    next hempty =>
      cases hhit
      exact List.nil_suffix
    next => cases hhit
  | literal value =>
    intro hit hhit
    split at hhit
    · cases hhit
      exact List.suffix_rfl
    · obtain ⟨rest, hrest, rfl⟩ := Option.map_eq_some_iff.1 hhit
      exact ⟨value, List.append_eq_of_isPrefixOf?_eq_some hrest⟩
  | pattern p =>
    intro hit hhit
    obtain ⟨rest, hrest, rfl⟩ := Option.map_eq_some_iff.1 hhit
    exact Pattern.match?_suffix hrest

/-- A symbol that consumes leaves less than all of the input. -/
theorem Scene.Forward.plan_first (h : s.Forward k input) {symbol : Symbol} (hfirst : symbol.ConsumesFirst)
    (hstarts : ∀ name, symbol.RefersTo name → k.asks name input) :
    (symbol.target.plan input).Meets k fun got => ∀ hit ∈ got, IsAhead input (hit.rest input) := by
  have literal_ahead : ∀ value : List Char, value ≠ [] →
      ((Target.literal value).plan input).Meets k fun got =>
        ∀ hit ∈ got, IsAhead input (hit.rest input) := by
    intro value hvalue hit hhit
    rw [if_neg (by simpa using hvalue)] at hhit
    obtain ⟨rest, hrest, rfl⟩ := Option.map_eq_some_iff.1 hhit
    have happend := List.append_eq_of_isPrefixOf?_eq_some hrest
    refine ⟨⟨value, happend⟩, ?_⟩
    have hlength := congrArg List.length happend
    have hpos := List.length_pos_iff.2 hvalue
    rw [List.length_append] at hlength
    exact (by omega : rest.length < input.length)
  cases symbol with
  | literal value =>
    have hvalue : value ≠ "" := hfirst
    refine literal_ahead value.toList ?_
    simpa using hvalue
  | pattern p =>
    intro hit hhit
    obtain ⟨rest, hrest, rfl⟩ := Option.map_eq_some_iff.1 hhit
    exact Pattern.match?_isAhead hfirst hrest
  | reference r =>
    obtain ⟨-, -, htarget⟩ := hfirst
    cases hliteral : r.isLiteral with
    | true =>
      rw [hliteral, if_pos rfl] at htarget
      have hne : r.name ≠ Grammarian.endOfInput := by
        intro hend
        rw [Reference.isLiteral, hend] at hliteral
        cases hliteral
      have heq : (Symbol.reference r).target = .literal (Literal.decode r.name).toList := by
        rw [Symbol.target, if_neg hne, if_pos hliteral]
      rw [heq]
      refine literal_ahead _ ?_
      simpa using htarget
    | false =>
      rw [hliteral, if_neg (by simp)] at htarget
      have heq : (Symbol.reference r).target = .rule r.name := by
        rw [Symbol.target, if_neg htarget, if_neg (by simp [hliteral])]
      rw [heq]
      refine ⟨hstarts r.name ⟨r, rfl, hliteral, htarget, rfl⟩, fun answer hanswer => ?_⟩
      intro hit hhit
      obtain ⟨m, hm, rfl⟩ := Option.map_eq_some_iff.1 hhit
      exact h.answers r.name input answer hanswer m hm

namespace Scene

/-- Where no white space is skipped, reaching a target is trying it. -/
theorem Forward.reach_eq (h : s.Forward k input) (target : Target) (g : Growth) :
    s.reach target g = (target.plan g.rest).bind fun got => .done (g, got) := by
  have hskips : s.rule.skipsWhitespace = false := by simpa [Rule.skipsWhitespace] using h.tight
  rw [reach]
  congr 1
  funext got
  cases got with
  | some hit => rfl
  | none => simp only [hskips, Bool.false_eq_true, if_false]

theorem Forward.recover_eq (h : s.Forward k input) (cs : List Char) : s.recover cs = .done none := by
  simp only [recover, h.strict]

theorem take_rest_suffix (ph : Phase) {hit : Hit} (hhit : hit.rest g.rest <:+ g.rest) :
    (take ph g hit).1.rest <:+ g.rest := by
  cases hit with
  | nothing => exact List.suffix_rfl
  | text rest =>
    simp only [take]
    split
    · exact List.suffix_rfl
    · exact hhit
  | node m =>
    simp only [take]
    split
    · exact List.suffix_rfl
    · exact hhit

/-- A phase that is no look-ahead leaves what its hit leaves. -/
theorem take_rest_of_not_positive {ph : Phase} (h : ph.reference.isPositive = false) (hit : Hit) :
    (take ph g hit).1.rest = hit.rest g.rest := by
  cases hit with
  | nothing => rfl
  | text rest => simp only [take, h, Bool.false_eq_true, if_false, Hit.rest]
  | node m => simp only [take, h, Bool.false_eq_true, if_false, Hit.rest, Growth.add]

theorem commit_rest (number : Nat) (ph : Phase) (g : Growth) :
    (s.commit number ph g).Meets k fun g' => g'.rest = g.rest := by
  unfold commit
  split
  · rfl
  · rfl

/-- A phase without a hit, where nothing is skipped in the way of recovery. -/
theorem Forward.afterMiss_ahead (h : s.Forward k input) (number : Nat) (ph : Phase) (again : Bool)
    (hg : IsAhead input g.rest) :
    (s.afterMiss number ph again g).Meets k (PhaseEnd.IsAhead input) := by
  have hpositive : 0 < input.length := Nat.lt_of_le_of_lt (Nat.zero_le _) hg.2
  unfold afterMiss
  split
  · trivial
  · split
    · exact hg
    · split
      · exact hg
      · split
        · exact ⟨List.nil_suffix, hpositive⟩
        · rw [h.recover_eq]
          trivial

/-- Further on than the front of the input, a phase stays there. The induction is on the input left, which
every further round makes shorter. -/
theorem Forward.phase_ahead (h : s.Forward k input) (number : Nat) (ph : Phase) (again : Bool)
    (hg : IsAhead input g.rest) :
    (s.phase number ph again g).Meets k (PhaseEnd.IsAhead input) := by
  induction hlength : g.rest.length using Nat.strongRecOn generalizing again g with
  | ind n ih =>
    rw [phase_eq, h.reach_eq, Plan.meets_bind, Plan.meets_bind]
    refine (h.plan_ahead ph.target hg).mono fun got hgot => ?_
    rw [Plan.meets_done]
    dsimp only
    split
    · cases got with
      | some hit => trivial
      | none => exact hg
    · cases got with
      | none => exact h.afterMiss_ahead number ph again hg
      | some hit =>
        refine (commit_rest number ph g).bind fun g' hrest => ?_
        have hg' : IsAhead input g'.rest := hrest ▸ hg
        have htaken : IsAhead input (take ph g' hit).1.rest := by
          refine hg'.of_suffix (take_rest_suffix ph ?_)
          rw [hrest]
          exact hgot hit rfl
        unfold afterHit
        split
        next hmore =>
          have hshorter := take_shortens hmore
          rw [hrest, hlength] at hshorter
          exact ih _ hshorter true htaken rfl
        next => exact htaken

/-- Phases never fall back behind what was ahead. -/
theorem Forward.phases_ahead (h : s.Forward k input) (number : Nat) (phs : List Phase)
    (hg : IsAhead input g.rest) :
    (s.phases number g phs).Meets k fun found => ∀ g' ∈ found, IsAhead input g'.rest := by
  induction phs generalizing number g with
  | nil =>
    intro g' hg'
    cases hg'
    exact hg
  | cons ph phs ih =>
    refine (h.phase_ahead number ph false hg).bind fun e he => ?_
    cases e with
    | next g' => exact ih (number + 1) he
    | stop g' =>
      intro g'' hg''
      cases hg''
      exact he
    | fail =>
      intro g' hg'
      cases hg'

/-- The first phase of an alternative consumes something, or the alternative is left. -/
theorem Forward.phase_first (h : s.Forward k input) {symbol : Symbol} (hfirst : symbol.ConsumesFirst)
    (hstarts : ∀ name, symbol.RefersTo name → k.asks name input) :
    (s.phase 1 symbol.phase false { rest := input }).Meets k (PhaseEnd.IsAhead input) := by
  have hmarks : symbol.phase.reference.isPositive = false ∧ symbol.phase.reference.isNegative = false ∧
      symbol.phase.reference.isOptional = false := by
    cases symbol with
    | literal value => exact ⟨rfl, rfl, rfl⟩
    | pattern p => exact ⟨rfl, rfl, rfl⟩
    | reference r =>
      obtain ⟨hlook, hoptional, -⟩ := hfirst
      refine ⟨?_, ?_, hoptional⟩
      · simp [Symbol.phase, Symbol.asReference, Reference.isPositive, hlook]
      · simp [Symbol.phase, Symbol.asReference, Reference.isNegative, hlook]
  obtain ⟨hpositive, hnegative, hoptional⟩ := hmarks
  rw [phase_eq, h.reach_eq, Plan.meets_bind, Plan.meets_bind]
  refine (h.plan_first hfirst hstarts).mono fun got hgot => ?_
  rw [Plan.meets_done, if_neg (by simp [hnegative])]
  cases got with
  | none =>
    dsimp only
    unfold afterMiss
    rw [if_neg (by simp [hpositive]), if_neg (by simp [hoptional]), if_neg (by simp), if_neg (by simp),
      h.recover_eq]
    trivial
  | some hit =>
    refine (commit_rest 1 symbol.phase _).bind fun g' hrest => ?_
    have htaken : IsAhead input (take symbol.phase g' hit).1.rest := by
      rw [take_rest_of_not_positive hpositive, hrest]
      exact hgot hit rfl
    unfold afterHit
    split
    · exact h.phase_ahead _ _ _ htaken
    · exact htaken

/-- An alternative that starts with a consuming symbol leaves less. -/
theorem Forward.alternative_first (h : s.Forward k input) {alt : List Symbol}
    (hfirst : ∀ symbol ∈ alt.head?, symbol.ConsumesFirst)
    (hstarts : ∀ symbol ∈ alt.head?, ∀ name, symbol.RefersTo name → k.asks name input) :
    (s.alternative input (alt.map Symbol.phase)).Meets k fun found =>
      ∀ m ∈ found, IsAhead input m.rest := by
  cases alt with
  | nil =>
    intro m hm
    cases hm
  | cons symbol symbols =>
    have hphases : (s.phases 1 { rest := input } ((symbol :: symbols).map Symbol.phase)).Meets k
        fun found => ∀ g ∈ found, IsAhead input g.rest := by
      refine (h.phase_first (hfirst symbol rfl) (hstarts symbol rfl)).bind fun e he => ?_
      cases e with
      | next g => exact h.phases_ahead _ _ he
      | stop g =>
        intro g' hg'
        cases hg'
        exact he
      | fail =>
        intro g' hg'
        cases hg'
    refine hphases.bind fun found hfound => ?_
    cases found with
    | none =>
      intro m hm
      cases hm
    | some g =>
      intro m hm
      split at hm
      · cases hm
        exact hfound g rfl
      · cases hm

/-- Alternatives that all start with consuming symbols leave less. -/
theorem Forward.alternatives_first (h : s.Forward k input) {alts : List (List Symbol)}
    (hfirst : ∀ alt ∈ alts, ∀ symbol ∈ alt.head?, symbol.ConsumesFirst)
    (hstarts : ∀ alt ∈ alts, ∀ symbol ∈ alt.head?, ∀ name, symbol.RefersTo name →
      k.asks name input) :
    (s.alternatives input (alts.map (·.map Symbol.phase))).Meets k fun found =>
      ∀ m ∈ found, IsAhead input m.rest := by
  induction alts with
  | nil =>
    intro m hm
    cases hm
  | cons alt alts ih =>
    rw [List.forall_mem_cons] at hfirst hstarts
    refine (h.alternative_first hfirst.1 hstarts.1).bind fun found hfound => ?_
    cases found with
    | none => exact ih hfirst.2 hstarts.2
    | some m => exact hfound

end Scene

end Plans

theorem Rule.collapse_rest (r : Rule) (m : Match) : (r.collapse m).rest = m.rest := by
  unfold collapse
  split
  · split
    · rfl
    · rfl
  · rfl

namespace Table

variable {t : Table} {maxDepth : Option Nat} {name : String} {input : List Char}

/-- The plan of a rule that consumes at the front. -/
theorem ConsumesFirst.plan_meets (h : t.ConsumesFirst) {e : Entry} (he : t.entry? name = some e)
    (hphases : e.alternatives = e.rule.phases) (depth : Nat) (input : List Char) :
    (e.plan t.whitespace depth input).Meets (.ahead t name input) fun found =>
      ∀ m ∈ found, IsAhead input m.rest := by
  have hr := rule_mem_of_entry he
  have hforward : Scene.Forward ⟨e.rule, t.whitespace, depth⟩ (.ahead t name input) input :=
    ⟨h.tight e.rule hr, h.strict e.rule hr, fun _ _ hs => Or.inl hs, fun _ _ _ hanswer => hanswer⟩
  rw [Entry.plan, hphases]
  refine (hforward.alternatives_first (h.first e.rule hr) ?_).bind fun found hfound => ?_
  · intro alt halt symbol hsymbol rule hrule
    exact Or.inr ⟨rfl, e.rule, hr, name_of_entry he, alt, halt, symbol, hsymbol, hrule⟩
  · intro m hm
    obtain ⟨m', hm', rfl⟩ := Option.map_eq_some_iff.1 hm
    rw [Rule.collapse_rest]
    exact hfound m' hm'

/-! ## Calls at one place -/

/-- Every call in progress began further back, or here with a rule that leads to `name` by way of first
symbols. -/
def Leading (t : Table) (name : String) (input : List Char) (active : Finset Call) : Prop :=
  ∀ c ∈ active, input.length < c.2 ∨
    input.length = c.2 ∧ Relation.TransGen (StartsWith t.rules) c.1 name

theorem leading_empty (t : Table) (name : String) (input : List Char) : t.Leading name input ∅ := by
  intro c hc
  cases hc

/-- A call that the others lead to is not among them, where no rule leads to itself. -/
theorem Leading.not_mem {active : Finset Call} (h : t.Leading name input active)
    (hacyclic : ∀ name, ¬ Relation.TransGen (StartsWith t.rules) name name) :
    (name, input.length) ∉ active := by
  intro hc
  rcases h _ hc with hlt | ⟨-, hway⟩
  · exact Nat.lt_irrefl _ hlt
  · exact hacyclic name hway

/-- The call and those around it lead to every call it asks for. -/
theorem Leading.insert {active : Finset Call} (h : t.Leading name input active) {rule : String}
    {s : List Char} (hasks : (Contract.ahead t name input).asks rule s) :
    t.Leading rule s (Insert.insert (name, input.length) active) := by
  intro c hc
  rcases hasks with hahead | ⟨rfl, hstarts⟩
  · left
    rcases Finset.mem_insert.1 hc with rfl | hc
    · exact hahead.2
    · rcases h c hc with hlt | ⟨heq, -⟩
      · exact Nat.lt_trans hahead.2 hlt
      · exact heq ▸ hahead.2
  · rcases Finset.mem_insert.1 hc with rfl | hc
    · exact Or.inr ⟨rfl, .single hstarts⟩
    · rcases h c hc with hlt | ⟨heq, hway⟩
      · exact Or.inl hlt
      · exact Or.inr ⟨heq, hway.tail hstarts⟩

/-- The guard lets a call through. -/
def Visit.PassesGuard (v : Visit) : Prop := (v.name, v.input.length) ∉ v.active

/-- **One call.** Where the calls in progress lead to a call, its matches consume something, and the guard
lets it and every call further in through. -/
theorem ConsumesFirst.drive?_passes (h : t.ConsumesFirst)
    (hphases : ∀ name e, t.entry? name = some e → e.alternatives = e.rule.phases)
    (hacyclic : ∀ name, ¬ Relation.TransGen (StartsWith t.rules) name name) {fuel depth : Nat}
    {j j' : Journal} {found : Option Match} (hj : t.Leading name input j.active)
    (hdrive : t.drive? maxDepth fuel depth name input j = some (found, j')) :
    (∀ m ∈ found, IsAhead input m.rest) ∧ ∃ events, j.Extends Visit.PassesGuard events j' := by
  induction fuel generalizing depth name input j j' found with
  | zero => cases hdrive
  | succ fuel ih =>
    simp only [drive?] at hdrive
    have hnew := hj.not_mem hacyclic
    have hnote : j.Extends Visit.PassesGuard [] (j.note name input depth) :=
      Journal.extends_note hnew
    split at hdrive
    next =>
      cases hdrive
      exact ⟨by simp, [], j.extends_refl _⟩
    next e he =>
      split at hdrive
      next =>
        cases hdrive
        exact ⟨by simp, _, hnote.trans (Journal.extends_tell _ _ _)⟩
      next =>
        have hattempt := hnote.trans
          (Journal.extends_tell Visit.PassesGuard _ (.attempt name input depth))
        have hrun : ∀ {value : Option Match} {j'' : Journal},
            (e.plan t.whitespace depth input).drive? (t.drive? maxDepth fuel (depth + 1))
              (((j.note name input depth).tell (.attempt name input depth)).insert
                (name, input.length)) = some (value, j'') →
            (∀ m ∈ value, IsAhead input m.rest) ∧
              ∃ events, j.Extends Visit.PassesGuard events (j''.erase (name, input.length)) := by
          intro value j'' hplan
          have hmeets := h.plan_meets he (hphases name e he) depth input
          obtain ⟨hvalue, events, hext⟩ := hmeets.drive?_extends
            (fun rule s j₁ j₂ answer hasks hj₁ ha => ih (hj₁ ▸ hj.insert hasks) ha) rfl hplan
          exact ⟨hvalue, _, hattempt.trans (hext.within hnew)⟩
        split at hdrive
        next => cases hdrive
        next m j'' hplan =>
          cases hdrive
          obtain ⟨hvalue, events, hext⟩ := hrun hplan
          exact ⟨hvalue, _, hext.trans (Journal.extends_tell _ _ _)⟩
        next j'' hplan =>
          cases hdrive
          obtain ⟨hvalue, events, hext⟩ := hrun hplan
          exact ⟨hvalue, _, hext.trans (Journal.extends_tell _ _ _)⟩

/-- Every match of every call consumes something. -/
theorem ConsumesFirst.call_isAhead (h : t.ConsumesFirst)
    (hphases : ∀ name e, t.entry? name = some e → e.alternatives = e.rule.phases) (budget : Nat)
    (active : List Call) (depth : Nat) (name : String) (input : List Char) :
    ∀ m ∈ (t.call maxDepth budget active depth name input).value, IsAhead input m.rest := by
  induction budget generalizing active depth name input with
  | zero =>
    intro m hm
    obtain ⟨e, b, -, hb, -⟩ := exists_run_of_mem_call hm
    cases hb
  | succ budget ih =>
    intro m hm
    obtain ⟨e, b, he, hb, hm⟩ := exists_run_of_mem_call hm
    cases hb
    have hmeets := h.plan_meets he (hphases name e he) depth input
    exact hmeets.of_run (fun rule s _ => ih _ _ rule s) m hm

/-- **The guard has nothing to do.** In an accepted table without white space to skip and without recovery,
in which every alternative begins with something that consumes, matching ends from every rule, on every
input and with every limit on depth, and the guard lets every call on the way through. Every match of every
call, inner calls included, takes at least one byte from the front of the input. -/
theorem passes_guard_of_consumesFirst {rules : List Rule} {whitespace : String}
    (hbuild : build rules whitespace = .ok t) (h : t.ConsumesFirst) (maxDepth : Option Nat) :
    (∀ name input, ∃ j, t.drive? maxDepth (t.budgetFor input) 0 name input {} =
        some ((t.matchRule maxDepth name input).value, j) ∧
      j.events = (t.matchRule maxDepth name input).events ∧
      ∀ v ∈ j.visits, (v.name, v.input.length) ∉ v.active) ∧
    ∀ budget active depth name input,
      ∀ m ∈ (t.call maxDepth budget active depth name input).value,
        ∃ front, front ++ m.rest = input ∧ 0 < Text.byteCount front := by
  have hphases : ∀ name e, t.entry? name = some e → e.alternatives = e.rule.phases :=
    fun _ _ => alternatives_of_entry hbuild
  constructor
  · intro name input
    have hacyclic : ∀ name, ¬ Relation.TransGen (StartsWith t.rules) name name := by
      obtain ⟨hproblems, rfl⟩ := build_eq_ok_iff.1 hbuild
      rw [rules_ofRules]
      exact (problems_eq_nil_iff_valid.1 hproblems).1.acyclic
    obtain ⟨j, hdrive, hext⟩ := drive?_eq_call maxDepth [] (t.budgetFor input) (t.budgetFor input)
      name (List.suffix_rfl : input <:+ input) (t.orderly_nil _) (Nat.lt_succ_self _)
      (Nat.lt_succ_self _) {} rfl
    obtain ⟨-, events, hpasses⟩ :=
      h.drive?_passes hphases hacyclic (t.leading_empty name input) hdrive
    refine ⟨j, hdrive, hext.events, fun v hv => ?_⟩
    obtain ⟨vs, hvs, hgood⟩ := hpasses.visits
    rw [hvs] at hv
    exact hgood v hv
  · intro budget active depth name input m hm
    obtain ⟨⟨front, hfront⟩, hlength⟩ := h.call_isAhead hphases budget active depth name input m hm
    refine ⟨front, hfront, Nat.lt_of_lt_of_le ?_ (Text.length_le_byteCount front)⟩
    rw [← hfront, List.length_append] at hlength
    omega

/-- A grammar of lists in brackets whose alternatives begin with a letter, a bracket or another rule. -/
def groups : List Rule :=
  [{ name := "List", alternatives := [[.reference (.ofText "Item+")]] },
    { name := "Item", alternatives := [[.literal "x"], [.reference (.ofText "@Group")]] },
    { name := "Group", alternatives := [[.literal "(", .reference (.ofText "List?"), .literal ")"]] }]

theorem groups_passes_guard : ∃ j, (ofRules groups "WS").drive? (some 3)
      ((ofRules groups "WS").budgetFor ['x', '(', 'x', ')']) 0 "List" ['x', '(', 'x', ')'] {} =
        some (((ofRules groups "WS").matchRule (some 3) "List" ['x', '(', 'x', ')']).value, j) ∧
    ∀ v ∈ j.visits, (v.name, v.input.length) ∉ v.active := by
  have hordered : WellOrdered ["List", "Item"] (groups.map (Rule.settled "WS")) "WS" := by decide +kernel
  have hconsumes : (ofRules groups "WS").ConsumesFirst := ⟨by decide, by decide, by decide⟩
  obtain ⟨j, hdrive, -, hpasses⟩ :=
    (passes_guard_of_consumesFirst hordered.build hconsumes (some 3)).1 "List" ['x', '(', 'x', ')']
  exact ⟨j, hdrive, hpasses⟩

end Table

end Grammarian
