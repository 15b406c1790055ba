import Grammarian.Proofs.Parse.Places
import Grammarian.Proofs.Parse.Recovery
import Grammarian.Proofs.Pattern.Remainder

/-!
# Laws of drafts

A law is a property of nodes that every way of making a node respects. What matching builds then obeys
it everywhere: matches end in a suffix of their input, the drafts they add follow one another over the
input they consume, and every node fulfils the law. The proof goes through matching once, for all laws
and contracts: one lemma says what each step does to a growth, and `Entry.plan_keeps` puts them together.
`Law.Kept` gathers what it needs of the law, the rule that is matched and the contract.
-/

namespace Grammarian

open Draft

/-- What is to hold of every node, and what of every node that stands below another one. -/
structure Law where
  node : Draft → Prop
  inner : Draft → Prop

/-- The nodes that a match with the given rules can make respect the law. -/
structure Law.Respected (L : Law) (rules : List Rule) : Prop where
  ofFault : ∀ (fault : Fault) (input rest : List Char), rest.length ≤ input.length →
    L.node (.ofFault fault input rest) ∧ L.inner (.ofFault fault input rest)
  endOfInput : L.node Match.endOfInput.draft ∧ L.inner Match.endOfInput.draft
  /-- only nodes that stay where their rule asks for a single child in their place -/
  node : ∀ r ∈ rules, ∀ left after children, InOrder left after children →
    (∀ c ∈ children, L.inner c) → (r.collapseSingleChild = true → children.length ≠ 1) →
    L.node ⟨r.name, none, left, after, children⟩
  inner : ∀ r ∈ rules, r.fragment = false → ∀ left after children,
    L.inner ⟨r.name, none, left, after, children⟩

/-- A match at the front of `input` obeys the law. -/
structure Match.Obeys (L : Law) (input : List Char) (m : Match) : Prop where
  rest : m.rest <:+ input
  root : InOrder input.length m.rest.length [m.draft]
  order : InOrder input.length m.rest.length m.additions
  node : ∀ n ∈ m.draft.nodes, L.node n
  inner : ∀ d ∈ m.additions, L.inner d

/-- The growth of an alternative at the front of `input` obeys the law. -/
structure Growth.Obeys (L : Law) (input : List Char) (g : Growth) : Prop where
  rest : g.rest <:+ input
  order : InOrder input.length g.rest.length g.children
  node : ∀ d ∈ g.children, ∀ n ∈ d.nodes, L.node n
  inner : ∀ d ∈ g.children, L.inner d

/-- A hit at the front of `input` obeys the law. -/
def Hit.Obeys (L : Law) (input : List Char) : Hit → Prop
  | nothing => True
  | text rest => rest <:+ input
  | node m => m.Obeys L input

/-- While `input` is matched, questions are about its suffixes and answers obey the law. -/
def Law.contract (L : Law) (input : List Char) : Contract where
  asks _ s := s <:+ input
  answers _ s answer := ∀ m ∈ answer, m.Obeys L s

/-- What the law needs of a rule, and of the contract that the rule is matched under, so that every match at
the front of `input` obeys it. -/
structure Law.Kept (L : Law) (r : Rule) (input : List Char) (k : Contract) : Prop where
  asks : ∀ rule s, s <:+ input → k.asks rule s
  answers : ∀ rule s answer, k.answers rule s answer → ∀ m ∈ answer, m.Obeys L s
  endOfInput : L.node Match.endOfInput.draft ∧ L.inner Match.endOfInput.draft
  missing : ∀ (name : String) (s : List Char),
    L.node (.ofFault (.missing name) s []) ∧ L.inner (.ofFault (.missing name) s [])
  recovered : ∀ s : Scene, s.rule = r → ∀ cs, cs <:+ input →
    (s.recover cs).Meets k fun found => ∀ m ∈ found, m.Obeys L cs
  node : ∀ after children, InOrder input.length after children → (∀ c ∈ children, L.inner c) →
    (r.collapseSingleChild = true → children.length ≠ 1) →
    L.node ⟨r.name, none, input.length, after, children⟩
  inner : r.fragment = false → ∀ after children,
    L.inner ⟨r.name, none, input.length, after, children⟩

section Steps

variable {L : Law} {r : Rule} {k : Contract} {input s : List Char} {g : Growth} {m : Match}

theorem Growth.obeys_start (L : Law) (input : List Char) :
    Growth.Obeys L input { rest := input } where
  rest := List.suffix_rfl
  order := Nat.le_refl _
  node := by simp
  inner := by simp

theorem Match.Obeys.additions_node (hm : m.Obeys L s) :
    ∀ d ∈ m.additions, ∀ n ∈ d.nodes, L.node n := by
  intro d hd n hn
  unfold additions at hd
  split at hd
  · exact hm.node n (mem_nodes_of_child hd hn)
  · rw [List.mem_singleton.1 hd] at hn
    exact hm.node n hn

/-- A match from where the growth has come to can be added. -/
theorem Growth.Obeys.add (hg : g.Obeys L input) (hm : m.Obeys L g.rest) :
    (g.add m).Obeys L input where
  rest := hm.rest.trans hg.rest
  order := hg.order.append hm.order
  node d hd := (List.mem_append.1 hd).elim (hg.node d) (hm.additions_node d)
  inner d hd := (List.mem_append.1 hd).elim (hg.inner d) (hm.inner d)

/-- Input without a node may be passed over. -/
theorem Growth.Obeys.skip {rest : List Char} (hg : g.Obeys L input) (hrest : rest <:+ g.rest) :
    Growth.Obeys L input { g with rest } where
  rest := hrest.trans hg.rest
  order := by
    have h : InOrder g.rest.length rest.length [] := hrest.length_le
    simpa using hg.order.append h
  node := hg.node
  inner := hg.inner

theorem Growth.Obeys.mark (hg : g.Obeys L input) (pinned started : Bool) :
    Growth.Obeys L input { g with pinned, started } := ⟨hg.rest, hg.order, hg.node, hg.inner⟩

theorem Match.obeys_ofFault {fault : Fault} {rest : List Char}
    (hfault : L.node (.ofFault fault input rest) ∧ L.inner (.ofFault fault input rest))
    (hrest : rest <:+ input) : Match.Obeys L input ⟨.ofFault fault input rest, false, rest⟩ where
  rest := hrest
  root := ⟨Nat.le_refl _, hrest.length_le, Nat.le_refl _⟩
  order := ⟨Nat.le_refl _, hrest.length_le, Nat.le_refl _⟩
  node n hn := by
    rw [nodes_eq, List.mem_cons] at hn
    rcases hn with rfl | hn
    · exact hfault.1
    · simp [Draft.ofFault] at hn
  inner d hd := by
    rw [List.mem_singleton.1 hd]
    exact hfault.2

theorem Match.obeys_endOfInput (h : L.Kept r input k) : Match.endOfInput.Obeys L [] where
  rest := List.suffix_rfl
  root := ⟨Nat.le_refl _, Nat.le_refl _, Nat.le_refl _⟩
  order := ⟨Nat.le_refl _, Nat.le_refl _, Nat.le_refl _⟩
  node n hn := by
    rw [nodes_eq, List.mem_cons] at hn
    rcases hn with rfl | hn
    · exact h.endOfInput.1
    · simp [endOfInput] at hn
  inner d hd := by
    rw [List.mem_singleton.1 hd]
    exact h.endOfInput.2

/-- Breaking off keeps the law. -/
theorem Growth.Obeys.breakOff (h : L.Kept r input k) (hg : g.Obeys L input) (ph : Phase) :
    (Scene.breakOff ph g).Obeys L input :=
  (hg.add (Match.obeys_ofFault (h.missing _ _) List.nil_suffix)).mark _ _

/-- A hit that obeys the law keeps what has grown obeying it. -/
theorem Growth.Obeys.take {hit : Hit} (hg : g.Obeys L input) (hhit : hit.Obeys L g.rest)
    (ph : Phase) : (Scene.take ph g hit).1.Obeys L input := by
  cases hit with
  | nothing => exact hg.mark _ _
  | text rest =>
    simp only [Scene.take]
    split
    · exact hg.mark _ _
    · exact (hg.skip hhit).mark _ _
  | node m =>
    simp only [Scene.take]
    split
    · exact hg.mark _ _
    · exact (hg.add hhit).mark _ _

/-- The match that an alternative ends with. -/
def Growth.close (g : Growth) (r : Rule) (input : List Char) : Match where
  draft := ⟨r.name, none, input.length, g.rest.length, g.children⟩
  dissolves := r.fragment
  rest := g.rest

/-- What has grown obeys the law when it is closed, where collapsing leaves it alone. -/
theorem Growth.Obeys.close (h : L.Kept r input k) (hg : g.Obeys L input)
    (hstays : r.collapseSingleChild = true → g.children.length ≠ 1) :
    (g.close r input).Obeys L input where
  rest := hg.rest
  root := ⟨Nat.le_refl _, hg.rest.length_le, Nat.le_refl _⟩
  order := by
    unfold Match.additions Growth.close
    split
    · exact hg.order
    · exact ⟨Nat.le_refl _, hg.rest.length_le, Nat.le_refl _⟩
  node n hn := by
    rw [nodes_eq, List.mem_cons] at hn
    rcases hn with rfl | hn
    · exact h.node _ _ hg.order hg.inner hstays
    · obtain ⟨c, hc, hn⟩ := List.mem_flatMap.1 hn
      exact hg.node c hc n hn
  inner d hd := by
    unfold Match.additions Growth.close at hd
    split at hd
    next => exact hg.inner d hd
    next hkeep =>
      rw [List.mem_singleton.1 hd]
      exact h.inner (Bool.eq_false_iff.2 hkeep) _ _

/-- A single child that takes the place of its node is a child that the growth had already. -/
theorem Growth.Obeys.collapse (h : L.Kept r input k) (hg : g.Obeys L input) :
    (r.collapse (g.close r input)).Obeys L input := by
  unfold Rule.collapse
  split
  next hcollapse =>
    split
    next child hchild =>
      have hchild : g.children = [child] := hchild
      have hmem : child ∈ g.children := by rw [hchild]; exact List.mem_singleton_self child
      have horder : InOrder input.length g.rest.length [child] := hchild ▸ hg.order
      exact
        { rest := hg.rest
          root := horder
          order := horder
          node := hg.node child hmem
          inner := by
            intro d hd
            rw [List.mem_singleton.1 hd]
            exact hg.inner child hmem }
    next hnot =>
      refine hg.close h fun _ hlength => ?_
      obtain ⟨child, hchild⟩ := List.length_eq_one_iff.1 hlength
      exact hnot child hchild
  next hcollapse => exact hg.close h fun hc => absurd hc hcollapse

/-- A law that nodes respect is kept by every rule, with answers that obey it. -/
theorem Law.Respected.kept {rules : List Rule} (hL : L.Respected rules) (hr : r ∈ rules)
    (input : List Char) : L.Kept r input (L.contract input) where
  asks _ _ hs := hs
  answers _ _ _ hanswer := hanswer
  endOfInput := hL.endOfInput
  missing name s := hL.ofFault (.missing name) s [] (Nat.zero_le _)
  recovered s _ cs hcs := by
    refine (s.recover_meets (fun _ _ _ => True) (fun _ _ hs => hs.trans hcs)
      fun _ _ _ _ _ => trivial).mono fun found hfound => ?_
    rintro m rfl
    obtain ⟨target, rest, -, -, hfirst, rfl⟩ := hfound
    exact Match.obeys_ofFault (hL.ofFault _ cs rest hfirst.suffix.length_le) hfirst.suffix
  node after children horder hinner hstays := hL.node r hr _ after children horder hinner hstays
  inner hfragment after children := hL.inner r hr hfragment _ after children

end Steps

section Plans

variable {L : Law} {k : Contract} {input : List Char} {g : Growth}

/-- What a target hits obeys the law. -/
theorem Target.plan_meets {r : Rule} (h : L.Kept r input k) (target : Target) {s : List Char}
    (hs : s <:+ input) : (target.plan s).Meets k fun got => ∀ hit ∈ got, hit.Obeys L s := by
  cases target with
  | rule name =>
    refine ⟨h.asks name s hs, fun answer hanswer => ?_⟩
    rintro hit hhit
    obtain ⟨m, hm, rfl⟩ := Option.map_eq_some_iff.1 hhit
    exact h.answers name s answer hanswer m hm
  | endOfInput =>
    rintro hit hhit
    split at hhit
    next hempty =>
      rw [List.isEmpty_iff.1 hempty, ← Option.some.inj hhit]
      exact Match.obeys_endOfInput h
    next => cases hhit
  | literal value =>
    rintro hit hhit
    split at hhit
    · rw [← Option.some.inj hhit]
      trivial
    · obtain ⟨rest, hrest, rfl⟩ := Option.map_eq_some_iff.1 hhit
      exact ⟨value, List.append_eq_of_isPrefixOf?_eq_some hrest⟩
  | pattern p =>
    rintro hit hhit
    obtain ⟨rest, hrest, rfl⟩ := Option.map_eq_some_iff.1 hhit
    exact Pattern.match?_suffix hrest

/-- Skipping white space keeps the law. -/
theorem skipWhitespace_meets {r : Rule} (h : L.Kept r input k) (whitespace : String)
    (hg : g.Obeys L input) : (skipWhitespace whitespace g).Meets k fun g' => g'.Obeys L input :=
  skipWhitespace_preserves (fun g hg => h.asks whitespace g.rest hg.rest)
    (fun g m hg hm _ => hg.add (h.answers whitespace g.rest (some m) hm m rfl)) hg

namespace Scene

variable {s : Scene}

/-- What is reached obeys the law. -/
theorem reach_meets (h : L.Kept s.rule input k) (target : Target) (hg : g.Obeys L input) :
    (s.reach target g).Meets k fun r =>
      r.1.Obeys L input ∧ ∀ hit ∈ r.2, hit.Obeys L r.1.rest := by
  rw [reach]
  refine (target.plan_meets h hg.rest).bind fun got hgot => ?_
  cases got with
  | some hit => exact ⟨hg, hgot⟩
  | none =>
    dsimp only
    split
    · refine (skipWhitespace_meets h s.whitespace hg).bind fun g' hg' => ?_
      exact (target.plan_meets h hg'.rest).bind fun got hgot => ⟨hg', hgot⟩
    · exact ⟨hg, hgot⟩

/-- The end of a phase leaves a growth that obeys the law, if it leaves one. -/
def PhaseEnd.Obeys (L : Law) (input : List Char) : PhaseEnd → Prop
  | next g | stop g => g.Obeys L input
  | fail => True

theorem commit_meets (number : Nat) (ph : Phase) (hg : g.Obeys L input) :
    (s.commit number ph g).Meets k fun g' => g'.Obeys L input := by
  unfold commit
  split
  · exact hg.mark _ _
  · exact hg

/-- A phase whose target does not match keeps a growth to the law, provided that it does so when it goes
on from a match that input was skipped for. -/
theorem afterMiss_meets (h : L.Kept s.rule input k) (number : Nat) (ph : Phase) (again : Bool)
    (hg : g.Obeys L input)
    (hnext : ∀ m : Match, m.Obeys L g.rest →
      (s.afterHit number ph g (.node m)).Meets k (PhaseEnd.Obeys L input)) :
    (s.afterMiss number ph again g).Meets k (PhaseEnd.Obeys L input) := by
  unfold afterMiss
  split
  · trivial
  · split
    · exact hg
    · split
      · exact hg
      · split
        · exact hg.breakOff h ph
        · refine (h.recovered s rfl g.rest hg.rest).bind fun recovered hrecovered => ?_
          cases recovered with
          | none => trivial
          | some m => exact hnext m (hrecovered m rfl)

/-- A phase keeps a growth to the law, however often it repeats. The induction is on the input left,
which every further round makes shorter. -/
theorem phase_meets (h : L.Kept s.rule input k) (number : Nat) (ph : Phase) (again : Bool)
    (hg : g.Obeys L input) :
    (s.phase number ph again g).Meets k (PhaseEnd.Obeys L input) := by
  induction hlength : g.rest.length using Nat.strongRecOn generalizing again g with
  | ind n ih =>
    have hnext : ∀ (g' : Growth) (hit : Hit), g'.rest.length ≤ n → g'.Obeys L input →
        hit.Obeys L g'.rest →
        (s.afterHit number ph g' hit).Meets k (PhaseEnd.Obeys L input) := by
      intro g' hit hle hg' hhit
      unfold afterHit
      split
      next hmore =>
        exact ih _ (Nat.lt_of_lt_of_le (take_shortens hmore) hle) true (hg'.take hhit ph) rfl
      next => exact hg'.take hhit ph
    rw [phase_eq]
    refine ((reach_meets h ph.target hg).and_any (s.reach_shortens ph.target g)).bind ?_
    rintro ⟨g', got⟩ ⟨⟨hg', hgot⟩, hle⟩
    replace hle : g'.rest.length ≤ n := hlength ▸ hle
    dsimp only at hg' hgot ⊢
    split
    · cases got with
      | some hit => trivial
      | none => exact hg'
    · cases got with
      | some hit =>
        refine ((commit_meets number ph hg').and_any (s.commit_keeps_rest number ph g')).bind ?_
        rintro g'' ⟨hg'', hrest⟩
        exact hnext g'' hit (hrest ▸ hle) hg'' (hrest ▸ hgot hit rfl)
      | none => exact afterMiss_meets h number ph again hg' fun m hm => hnext g' (.node m) hle hg' hm

/-- The phases of an alternative keep a growth to the law. -/
theorem phases_meets (h : L.Kept s.rule input k) (number : Nat) (phs : List Phase)
    (hg : g.Obeys L input) :
    (s.phases number g phs).Meets k fun found => ∀ g' ∈ found, g'.Obeys L input := by
  induction phs generalizing number g with
  | nil =>
    rintro g' ⟨⟩
    exact hg
  | cons ph phs ih =>
    refine (phase_meets h number ph false hg).bind fun e he => ?_
    cases e with
    | next g' => exact ih (number + 1) he
    | stop g' =>
      rintro g'' ⟨⟩
      exact he
    | fail => rintro g' ⟨⟩

/-- An alternative makes its match from a growth that obeys the law. -/
theorem alternative_meets (h : L.Kept s.rule input k) (phs : List Phase) :
    (s.alternative input phs).Meets k fun found =>
      ∀ m ∈ found, ∃ g : Growth, g.Obeys L input ∧ m = g.close s.rule input := by
  refine (phases_meets h 1 phs (Growth.obeys_start L input)).bind fun found hfound => ?_
  cases found with
  | none => rintro m ⟨⟩
  | some g =>
    intro m hm
    split at hm
    · exact ⟨g, hfound g rfl, (Option.some.inj hm).symm⟩
    · cases hm

/-- What the alternatives of a rule find has grown under the law. -/
theorem alternatives_meets (h : L.Kept s.rule input k) (alts : List (List Phase)) :
    (s.alternatives input alts).Meets k fun found =>
      ∀ m ∈ found, ∃ g : Growth, g.Obeys L input ∧ m = g.close s.rule input := by
  induction alts with
  | nil => rintro m ⟨⟩
  | cons phs alts ih =>
    refine (alternative_meets h phs).bind fun found hfound => ?_
    cases found with
    | none => exact ih
    | some m => exact hfound

end Scene

/-- Matching a rule that keeps the law makes a match that obeys it. It is the match that some growth ends
with, with a single child in its place where the rule asks for that. -/
theorem Table.Entry.plan_keeps {e : Table.Entry} (h : L.Kept e.rule input k) (whitespace : String)
    (depth : Nat) :
    (e.plan whitespace depth input).Meets k fun found =>
      ∀ m ∈ found, m.Obeys L input ∧
        ∃ g : Growth, g.Obeys L input ∧ m = e.rule.collapse (g.close e.rule input) := by
  refine (Scene.alternatives_meets (s := ⟨e.rule, whitespace, depth⟩) h e.alternatives).bind ?_
  rintro found hfound m hm
  obtain ⟨m', hm', rfl⟩ := Option.map_eq_some_iff.1 hm
  obtain ⟨g, hg, rfl⟩ := hfound m' hm'
  exact ⟨hg.collapse h, g, hg, rfl⟩

/-- What an entry finds obeys the law. -/
theorem Table.Entry.plan_meets {rules : List Rule} (hL : L.Respected rules) {e : Table.Entry}
    (he : e.rule ∈ rules) (whitespace : String) (depth : Nat) (input : List Char) :
    (e.plan whitespace depth input).Meets (L.contract input) fun found =>
      ∀ m ∈ found, m.Obeys L input ∧
        ∃ g : Growth, g.Obeys L input ∧ m = e.rule.collapse (g.close e.rule input) :=
  e.plan_keeps (hL.kept he input) whitespace depth

end Plans

end Grammarian
