import Grammarian.Proofs.Parse.Commitment

/-!
# Looking ahead

A phase that looks ahead adds nothing of what it looks at. It is looked for like any other phase, though:
where the rule skips white space and the target does not match at the cursor, the white space before it is
taken, whatever the look-ahead comes to. This is all it can take, and apart from it the match of an
alternative is made of its other phases.
-/

namespace Grammarian

/-- A growth goes on from another one: it has more children, and less input left. -/
structure Growth.Extends (g g' : Growth) : Prop where
  children : g.children <+: g'.children
  rest : g'.rest <:+ g.rest

theorem consumed_of_append {front rest input : List Char} (h : front ++ rest = input) :
    consumed input rest = front := by
  subst h
  simp [consumed]

namespace Growth

variable {g g' g'' : Growth}

theorem extends_refl (g : Growth) : g.Extends g := ⟨List.prefix_rfl, List.suffix_rfl⟩

theorem Extends.trans (h : g.Extends g') (h' : g'.Extends g'') : g.Extends g'' :=
  ⟨h.children.trans h'.children, h'.rest.trans h.rest⟩

theorem Extends.consumed_append (h : g.Extends g') : consumed g.rest g'.rest ++ g'.rest = g.rest := by
  obtain ⟨front, hfront⟩ := h.rest
  rw [consumed_of_append hfront, hfront]

theorem extends_add {m : Match} (hm : m.rest <:+ g.rest) : g.Extends (g.add m) :=
  ⟨List.prefix_append _ _, hm⟩

end Growth

/-- Every answer obeys the law at the front of the text that it is about. -/
def Answers.Obey (answers : Answers) (L : Law) : Prop :=
  ∀ rule input, ∀ m ∈ (answers rule input).value, m.Obeys L input

/-- The growth at the end of a round, unless it gives the alternative up. -/
def RoundEnd.growth? : RoundEnd → Option Growth
  | again g | next g | stop g => some g
  | fail => none

/-- What a round adds to the children. -/
def Round.added (r : Round) : List Draft :=
  (r.ending.growth?.map fun g => g.children.drop r.before.children.length).getD []

/-- What a round takes from the input. -/
def Round.taken (r : Round) : List Char :=
  (r.ending.growth?.map fun g => consumed r.before.rest g.rest).getD []

namespace Scene

section Rounds

variable {s : Scene} {answers : Answers} {number : Nat} {ph : Phase} {again : Bool} {g g' : Growth}

/-- There is white space at the cursor. -/
def SpaceAhead (s : Scene) (answers : Answers) (g : Growth) : Prop :=
  g.rest ≠ [] ∧ ∃ m ∈ (answers s.whitespace g.rest).value, m.rest.length < g.rest.length

/-- A phase takes the white space at the cursor to look for its target behind it. -/
structure TakesSpace (s : Scene) (answers : Answers) (ph : Phase) (g : Growth) : Prop where
  missed : ((ph.target.plan g.rest).run answers).value = none
  skips : s.rule.skipsWhitespace = true
  space : s.SpaceAhead answers g

theorem skipWhitespace_value_of_not_space (h : ¬ s.SpaceAhead answers g) :
    ((skipWhitespace s.whitespace g).run answers).value = g := by
  rw [skipWhitespace]
  split
  · rfl
  next hne =>
    simp only [Plan.run]
    split
    next m hm =>
      split
      next hlt =>
        refine absurd ⟨?_, m, hm, hlt⟩ h
        simpa using hne
      next => rfl
    next => rfl

theorem skipWhitespace_value_of_space (h : s.SpaceAhead answers g) :
    ((skipWhitespace s.whitespace g).run answers).value.rest.length < g.rest.length := by
  obtain ⟨hne, m, hm, hlt⟩ := h
  have hne : ¬ g.rest.isEmpty = true := by simpa using hne
  rw [skipWhitespace, if_neg hne]
  simp only [Plan.run, Option.mem_def.1 hm, if_pos hlt]
  exact Nat.lt_of_le_of_lt ((skipWhitespace_shortens s.whitespace (g.add m)).run_value answers) hlt

/-- The growth at which a target is looked for last is the one before it unless white space is taken. -/
theorem reached_of_not_takesSpace (h : ¬ s.TakesSpace answers ph g) :
    (s.roundAt answers number ph again g).reached = g := by
  rw [reached_eq]
  split
  next hif => exact skipWhitespace_value_of_not_space fun hspace => h ⟨hif.1, hif.2, hspace⟩
  next => rfl

theorem reached_of_takesSpace (number : Nat) (again : Bool) (h : s.TakesSpace answers ph g) :
    (s.roundAt answers number ph again g).reached.rest.length < g.rest.length := by
  rw [reached_eq, if_pos ⟨h.missed, h.skips⟩]
  exact skipWhitespace_value_of_space h.space

/-- A phase that looks ahead has one round, and adds nothing to the growth at which it looks. -/
theorem roundAt_of_lookahead (s : Scene) (answers : Answers) (number : Nat) (again : Bool) (g : Growth)
    (hph : ph.reference.isLookahead = true) :
    (s.roundAt answers number ph again g).ending = .fail ∨
      ∃ g', (s.roundAt answers number ph again g).ending = .next g' ∧
        g'.children = (s.roundAt answers number ph again g).reached.children ∧
        g'.rest = (s.roundAt answers number ph again g).reached.rest := by
  have hround := s.concludes_roundAt answers number ph again g
  generalize (s.roundAt answers number ph again g).reached = g₀ at hround ⊢
  generalize (s.roundAt answers number ph again g).ending = ending at hround ⊢
  generalize (s.roundAt answers number ph again g).got = got at hround
  cases hround with
  | forbidden | missing => exact .inl rfl
  | absent => exact .inr ⟨g₀, rfl, rfl, rfl⟩
  | hit hit hnegative =>
    have hpositive : ph.reference.isPositive = true := by
      cases hl : ph.reference.lookahead with
      | positive => simp [Reference.isPositive, hl]
      | none | negative => simp_all [Reference.isLookahead, Reference.isNegative]
    right
    cases hit with
    | nothing => exact ⟨_, rfl, rfl, rfl⟩
    | text rest | node m =>
      simp only [settle, take, hpositive, if_true]
      exact ⟨_, rfl, rfl, rfl⟩
  | optional hlook | breakOff hlook | recovered m hlook | lost hlook =>
    rw [hlook] at hph
    cases hph

/-- What a phase that looks ahead does to the growth: nothing just when it takes no white space. -/
theorem phase_of_lookahead (hph : ph.reference.isLookahead = true) :
    (∀ g', ((s.phase number ph again g).run answers).value ≠ .stop g') ∧
      ∀ g', ((s.phase number ph again g).run answers).value = .next g' →
        (g'.children = g.children ∧ g'.rest = g.rest ↔ ¬ s.TakesSpace answers ph g) := by
  rw [phase_value]
  rcases s.roundAt_of_lookahead answers number again g hph with hend | ⟨g', hend, hchildren, hrest⟩
  · rw [hend]
    exact ⟨nofun, nofun⟩
  · rw [hend]
    refine ⟨nofun, ?_⟩
    rintro g'' ⟨⟩
    constructor
    · rintro ⟨-, hkept⟩ htakes
      have hlt := reached_of_takesSpace number again htakes
      rw [← hrest, hkept] at hlt
      exact Nat.lt_irrefl _ hlt
    · intro htakes
      rw [hchildren, hrest, reached_of_not_takesSpace htakes]
      exact ⟨rfl, rfl⟩

/-! ## What a match is made of -/

theorem take_extends {hit : Hit} (hhit : hit.Obeys .free g.rest) (ph : Phase) :
    g.Extends (take ph g hit).1 := by
  cases hit with
  | nothing => exact ⟨List.prefix_rfl, List.suffix_rfl⟩
  | text rest =>
    simp only [take]
    split
    · exact ⟨List.prefix_rfl, List.suffix_rfl⟩
    · exact ⟨List.prefix_rfl, hhit⟩
  | node m =>
    simp only [take]
    split
    · exact ⟨List.prefix_rfl, List.suffix_rfl⟩
    · exact ⟨List.prefix_append _ _, hhit.rest⟩

theorem settle_extends (hit : Hit) (hhit : hit.Obeys .free g.rest)
    (h : (settle ph g hit).growth? = some g') : g.Extends g' := by
  have hgrowth : (settle ph g hit).growth? = some (take ph g hit).1 := by
    unfold settle
    split
    · rfl
    · rfl
  rw [hgrowth, Option.some.injEq] at h
  exact h ▸ take_extends hhit ph

/-- White space is taken from the front of what is left. -/
theorem reached_extends (hanswers : answers.Obey .free) (number : Nat) (ph : Phase) (again : Bool) (g : Growth) :
    g.Extends (s.roundAt answers number ph again g).reached := by
  rw [reached_eq]
  split
  · refine (skipWhitespace_preserves (k := ⟨fun _ _ => True, fun _ s answer => ∀ m ∈ answer, m.Obeys .free s⟩)
      (fun _ _ => trivial) (fun g₁ m hg₁ hm _ => hg₁.trans ?_) g.extends_refl).of_run
        fun rule input _ => hanswers rule input
    exact Growth.extends_add (hm m rfl).rest
  · exact g.extends_refl

/-- With the answers of a table, a growth goes on from the one before the round. -/
theorem roundAt_extends (hanswers : answers.Obey .free)
    (h : (s.roundAt answers number ph again g).ending.growth? = some g') : g.Extends g' := by
  have hkept : ∀ input, Law.free.Kept s.rule input (Law.free.contract input) :=
    (Law.free_respected [s.rule]).kept (List.mem_singleton_self s.rule)
  have hreached : g.Extends (s.roundAt answers number ph again g).reached := reached_extends hanswers number ph again g
  refine hreached.trans ?_
  have hgot : ∀ hit ∈ (s.roundAt answers number ph again g).got,
      hit.Obeys .free (s.roundAt answers number ph again g).reached.rest := by
    rw [got_eq]
    exact (ph.target.plan_meets (hkept _) List.suffix_rfl).of_run
      fun rule input _ => hanswers rule input
  have hround := s.concludes_roundAt answers number ph again g
  generalize (s.roundAt answers number ph again g).reached = g₀ at hround hgot ⊢
  generalize (s.roundAt answers number ph again g).ending = ending at hround h
  generalize (s.roundAt answers number ph again g).got = got at hround hgot
  cases hround with
  | forbidden | missing | lost => cases h
  | absent | optional =>
    cases h
    exact Growth.extends_refl _
  | hit hit hph =>
    have hextends := settle_extends (g := { g₀ with pinned := g₀.pinned || s.pins number ph }) hit
      (hgot hit rfl) h
    exact ⟨hextends.children, hextends.rest⟩
  | breakOff hph hpinned =>
    cases h
    exact ⟨List.prefix_append _ _, List.nil_suffix⟩
  | recovered m hph hpinned hm =>
    refine settle_extends (.node m) ?_ h
    exact ((hkept _).recovered s rfl _ List.suffix_rfl).of_run
      (fun rule input _ => hanswers rule input) m hm

/-- What rounds come to is what they began with, with everything that they added and without what they
took. -/
theorem outcome_accounts (hanswers : answers.Obey .free)
    {phs : List Phase} (h : outcome g (s.rounds answers number again g phs) = some g') :
    g'.children = g.children ++ (s.rounds answers number again g phs).flatMap Round.added ∧
      (s.rounds answers number again g phs).flatMap Round.taken ++ g'.rest = g.rest := by
  induction number, again, g, phs using rounds.induct s answers with
  | case1 number again g =>
    rw [rounds, outcome, Option.some.injEq] at h
    simp [rounds, h]
  | case2 number again g ph phs ihAgain ihNext =>
    have hstep : ∀ g₁, (s.roundAt answers number ph again g).ending.growth? = some g₁ →
        g₁.children = g.children ++ (s.roundAt answers number ph again g).added ∧
          (s.roundAt answers number ph again g).taken ++ g₁.rest = g.rest := by
      intro g₁ hg₁
      have hextends := roundAt_extends hanswers hg₁
      simp only [Round.added, Round.taken, hg₁, Option.map_some, Option.getD_some]
      exact ⟨(List.prefix_iff_eq_append.1 hextends.children).symm, hextends.consumed_append⟩
    rw [rounds_cons] at h ⊢
    rw [outcome] at h
    rw [List.flatMap_cons, List.flatMap_cons]
    cases hend : (s.roundAt answers number ph again g).ending with
    | again g₁ =>
      rw [hend] at h hstep
      obtain ⟨hchildren, hrest⟩ := hstep g₁ rfl
      obtain ⟨hchildren', hrest'⟩ := ihAgain g₁ hend h
      rw [roundsAfter, hchildren', hchildren, List.append_assoc, List.append_assoc, hrest', hrest]
      exact ⟨rfl, rfl⟩
    | next g₁ =>
      rw [hend] at h hstep
      obtain ⟨hchildren, hrest⟩ := hstep g₁ rfl
      obtain ⟨hchildren', hrest'⟩ := ihNext g₁ h
      rw [roundsAfter, hchildren', hchildren, List.append_assoc, List.append_assoc, hrest', hrest]
      exact ⟨rfl, rfl⟩
    | stop g₁ =>
      rw [hend] at h hstep
      obtain ⟨hchildren, hrest⟩ := hstep g₁ rfl
      cases h
      simp [roundsAfter, hchildren, hrest]
    | fail =>
      rw [hend] at h
      cases h

/-- A look-ahead that takes no white space adds nothing and takes nothing. -/
theorem still_of_lookahead (hph : ph.reference.isLookahead = true)
    (htakes : ¬ s.TakesSpace answers ph g) :
    (s.roundAt answers number ph again g).added = [] ∧
      (s.roundAt answers number ph again g).taken = [] := by
  have hbefore : (s.roundAt answers number ph again g).before = g := rfl
  rcases s.roundAt_of_lookahead answers number again g hph with hend | ⟨g', hend, hchildren, hrest⟩
  · simp [Round.added, Round.taken, hend, RoundEnd.growth?]
  · rw [reached_of_not_takesSpace htakes] at hchildren hrest
    simp [Round.added, Round.taken, hend, RoundEnd.growth?, hbefore, hchildren, hrest, consumed]

theorem flatMap_filter_of_nil {α β : Type} {p : α → Bool} {f : α → List β} {xs : List α}
    (h : ∀ x ∈ xs, p x = false → f x = []) : (xs.filter p).flatMap f = xs.flatMap f := by
  induction xs with
  | nil => rfl
  | cons x xs ih =>
    have ih := ih fun y hy => h y (List.mem_cons_of_mem x hy)
    cases hp : p x with
    | true => simp [hp, ih]
    | false => simp [hp, ih, h x List.mem_cons_self hp]

/-- A match whose look-aheads take no white space is made of its other phases. -/
theorem alternative_accounts (hanswers : answers.Obey .free) {input : List Char} {phs : List Phase}
    {m : Match} (hm : ((s.alternative input phs).run answers).value = some m)
    (htakes : ∀ r ∈ s.rounds answers 1 false { rest := input } phs,
      r.phase.reference.isLookahead = true → ¬ s.TakesSpace answers r.phase r.before) :
    m.draft.children = ((s.rounds answers 1 false { rest := input } phs).filter
        (!·.phase.reference.isLookahead)).flatMap Round.added ∧
      consumed input m.rest = ((s.rounds answers 1 false { rest := input } phs).filter
        (!·.phase.reference.isLookahead)).flatMap Round.taken := by
  have hstill : ∀ r ∈ s.rounds answers 1 false { rest := input } phs,
      (!r.phase.reference.isLookahead) = false → r.added = [] ∧ r.taken = [] := by
    intro r hr hlook
    have hlook : r.phase.reference.isLookahead = true := by simpa using hlook
    obtain ⟨front, back, hsplit⟩ := List.append_of_mem hr
    obtain ⟨number, again, g, ph, phs', rfl, -⟩ := exists_of_rounds_eq hsplit
    exact still_of_lookahead hlook (htakes _ hr hlook)
  rw [flatMap_filter_of_nil fun r hr hlook => (hstill r hr hlook).1,
    flatMap_filter_of_nil fun r hr hlook => (hstill r hr hlook).2]
  rw [alternative_value] at hm
  obtain ⟨g, hout, hg⟩ := Option.bind_eq_some_iff.1 hm
  split at hg
  · obtain ⟨hchildren, htaken⟩ := outcome_accounts hanswers hout
    cases hg
    refine ⟨hchildren, ?_⟩
    exact consumed_of_append htaken
  · cases hg

end Rounds

end Scene

namespace Table

/-- **Looking ahead takes nothing but white space.** In a call of a rule, in whatever state of the calls
around it, a phase that looks ahead never ends the alternative early, and leaves the children and the
cursor as they are just when it takes no white space: when its target matches at the cursor, the rule
does not skip white space, or there is none. A match whose look-aheads take no white space has the
children and the text of its other phases. -/
theorem lookahead_keeps_iff (t : Table) (e : Entry) (maxDepth : Option Nat) (budget depth : Nat)
    (active : List Call) (name : String) (input : List Char) :
    (∀ number ph again g, ph.reference.isLookahead = true →
      (∀ g', (((t.sceneOf e depth).phase number ph again g).run
        (t.answersWithin maxDepth budget active depth name input)).value ≠ .stop g') ∧
      ∀ g', (((t.sceneOf e depth).phase number ph again g).run
          (t.answersWithin maxDepth budget active depth name input)).value = .next g' →
        (g'.children = g.children ∧ g'.rest = g.rest ↔
          ¬ (t.sceneOf e depth).TakesSpace
            (t.answersWithin maxDepth budget active depth name input) ph g)) ∧
    ∀ phs m, (((t.sceneOf e depth).alternative input phs).run
        (t.answersWithin maxDepth budget active depth name input)).value = some m →
      (∀ r ∈ (t.sceneOf e depth).rounds (t.answersWithin maxDepth budget active depth name input) 1 false
          { rest := input } phs, r.phase.reference.isLookahead = true →
        ¬ (t.sceneOf e depth).TakesSpace (t.answersWithin maxDepth budget active depth name input)
          r.phase r.before) →
      m.draft.children = (((t.sceneOf e depth).rounds
          (t.answersWithin maxDepth budget active depth name input) 1 false { rest := input } phs).filter
            (!·.phase.reference.isLookahead)).flatMap Round.added ∧
        consumed input m.rest = (((t.sceneOf e depth).rounds
          (t.answersWithin maxDepth budget active depth name input) 1 false { rest := input } phs).filter
            (!·.phase.reference.isLookahead)).flatMap Round.taken := by
  refine ⟨fun number ph again g hph => Scene.phase_of_lookahead hph, fun phs m hm htakes => ?_⟩
  exact Scene.alternative_accounts
    (fun rule s => call_obeys (Law.free_respected t.rules) _ _ _ _ rule s) hm htakes

/-- A rule that skips white space and must not be followed by `b`. -/
def unfollowed : Rule where
  name := "A"
  alternatives := [[.literal "a", .reference (.ofText "!\"b\"")]]
  implicitWhitespace := some true

/-- The grammar of the rule, with a single blank for white space. -/
def ofUnfollowed : Table := ofRules [unfollowed, { name := "WS", alternatives := [[.literal " "]] }] "WS"

/-- Looking ahead for `b` takes the blank after `a`, which becomes part of the match. -/
theorem lookahead_takes_blank :
    Table.build [unfollowed, { name := "WS", alternatives := [[.literal " "]] }] "WS" = .ok ofUnfollowed ∧
    (match (((ofUnfollowed.sceneOf ⟨unfollowed, unfollowed.phases⟩ 0).phase 2
          (Symbol.reference (.ofText "!\"b\"")).phase false { rest := [' ', 'c'], started := true }).run
          (ofUnfollowed.answersWithin none 7 [] 0 "A" ['a', ' ', 'c'])).value with
      | .next g' => some (g'.rest, g'.children.length)
      | _ => none) = some (['c'], 1) ∧
    (ofUnfollowed.matchRule none "A" ['a', ' ', 'c']).value.map
      (fun m => (m.rest, m.draft.children.map (·.kind))) = some (['c'], ["WS"]) := by
  refine ⟨build_eq_ok_iff.2 ⟨by cbv, rfl⟩, ?_, ?_⟩
  · decide +kernel
  · decide +kernel

end Table

end Grammarian
