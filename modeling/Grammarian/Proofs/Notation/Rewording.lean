import Grammarian.Proofs.Notation.Characters
import Grammarian.Proofs.Notation.Writing
import Grammarian.Proofs.Parse.Likeness
import Grammarian.Proofs.Parse.Reach

/-!
# Rules reworded

A list of rules may give its helpers other names, and put the terminal of a helper where the helper was referred
to. `Rewording` lists the rules with those in their place. The reworded rules are accepted where the rules are,
and parses from a rule that is no helper come to the same with both: `Rewording.parse_eq`.
-/

namespace Grammarian

/-- Rules, each with the rule in its place. A helper for a terminal may have none. -/
abbrev Rewording := List (Rule × Option Rule)

namespace Rewording

/-- A symbol and what it is reworded to. -/
inductive Symbols (w : Rewording) : Symbol → Symbol → Prop
  | terminal {s : Symbol} (h : s.isTerminal = true) : Symbols w s s
  | itself {r : Reference} (hname : isHelperName r.name = false) (hpin : r.pin = false) :
    Symbols w (.reference r) (.reference r)
  | renamed {r : Reference} {h h' : Rule} (hlink : (h, some h') ∈ w) (hname : r.name = h.name)
    (hhelper : isHelperName h.name = true) (hpin : r.pin = false) :
    Symbols w (.reference r) (.reference { r with name := h'.name })
  | inlined {h : Rule} {s : Symbol} (hlink : (h, none) ∈ w) (hterminal : h.alternatives = [[s]]) :
    Symbols w (.reference (.plain h.name)) s
  | quoted {r : Reference} {h : Rule} {value : String} (hlink : (h, none) ∈ w)
    (hterminal : h.alternatives = [[.literal value]]) (hname : r.name = h.name) (hpin : r.pin = false) :
    Symbols w (.reference r) (.reference { r with name := Literal.quote value })

/-- A rule and the one in its place. -/
structure Pair (w : Rewording) (r r' : Rule) : Prop where
  plain : r.IsPlain
  plain' : r'.IsPlain
  fragment : r'.fragment = r.fragment
  helper : isHelperName r'.name = isHelperName r.name
  name : isHelperName r.name = false → r'.name = r.name
  dissolves : isHelperName r.name = true → r.fragment = true
  alternatives : List.Forall₂ (List.Forall₂ (Symbols w)) r.alternatives r'.alternatives

/-- A helper that stands for a terminal. -/
structure Leaf (h : Rule) : Prop where
  plain : h.IsPlain
  helper : isHelperName h.name = true
  dissolves : h.fragment = true
  alternatives : ∃ s : Symbol, s.isTerminal = true ∧ h.alternatives = [[s]]

/-- What is said of every rule of the list. -/
def Link (w : Rewording) : Rule × Option Rule → Prop
  | (r, some r') => w.Pair r r'
  | (h, none) => Leaf h

def before (w : Rewording) : List Rule := w.map Prod.fst

def after (w : Rewording) : List Rule := w.filterMap Prod.snd

variable {w w' : Rewording} {s s' : Symbol} {r r' h : Rule}

theorem mem_before {o : Option Rule} (h : (r, o) ∈ w) : r ∈ w.before := List.mem_map.2 ⟨_, h, rfl⟩

theorem mem_after : r' ∈ w.after ↔ ∃ r, (r, some r') ∈ w := by
  simp [after]

theorem before_append (w w' : Rewording) : before (w ++ w') = w.before ++ w'.before := List.map_append

theorem after_append (w w' : Rewording) : after (w ++ w') = w.after ++ w'.after := List.filterMap_append

theorem before_concat (w : Rewording) (r r' : Rule) : before (w ++ [(r, some r')]) = w.before ++ [r] :=
  before_append w _

theorem after_concat (w : Rewording) (r r' : Rule) : after (w ++ [(r, some r')]) = w.after ++ [r'] :=
  after_append w _

/-- A symbol stays reworded when more rules are. -/
theorem Symbols.mono (h : Symbols w s s') (hw : ∀ l ∈ w, l ∈ w') : Symbols w' s s' := by
  cases h with
  | terminal h => exact .terminal h
  | itself hname hpin => exact .itself hname hpin
  | renamed hlink hname hhelper hpin => exact .renamed (hw _ hlink) hname hhelper hpin
  | inlined hlink hterminal => exact .inlined (hw _ hlink) hterminal
  | quoted hlink hterminal hname hpin => exact .quoted (hw _ hlink) hterminal hname hpin

theorem Link.mono {l : Rule × Option Rule} (h : w.Link l) (hw : ∀ l ∈ w, l ∈ w') : w'.Link l := by
  obtain ⟨r, o⟩ := l
  cases o with
  | none => exact h
  | some r' =>
    have h : w.Pair r r' := h
    refine Pair.mk h.plain h.plain' h.fragment h.helper h.name h.dissolves ?_
    exact h.alternatives.imp fun _ _ ha => ha.imp fun _ _ hs => hs.mono hw

/-! ## Terminals in place of helpers -/

theorem isPlain_asReference (h : s.isTerminal = true) : s.asReference.isPlain = true := by
  cases s with
  | literal value => rfl
  | pattern p => rfl
  | reference r => cases h

theorem isTerminal_target (h : s.isTerminal = true) : s.target.isTerminal = true := by
  cases s with
  | literal value => rfl
  | pattern p => rfl
  | reference r => cases h

/-- A helper is referred to by name, never as a literal or as the end of the input. -/
theorem target_of_helper {r : Reference} (h : isHelperName r.name = true) :
    (Symbol.reference r).target = .rule r.name := by
  have hend : r.name ≠ endOfInput := by
    intro heq
    rw [heq] at h
    exact absurd h (by decide)
  have hliteral : r.isLiteral = false := by
    rw [isHelperName] at h
    split at h
    next cs heq => simp [Reference.isLiteral, heq]
    next => cases h
  rw [Symbol.target, if_neg hend, if_neg (by simp [hliteral])]

theorem isLiteral_quote {r : Reference} (value : String) :
    ({ r with name := Literal.quote value } : Reference).isLiteral = true := by
  have hq := Literal.isQuote_quoteMark value.toList
  simpa [Reference.isLiteral, Literal.quote, Literal.quoted, Literal.isQuote] using hq

/-- A reference to quoted text targets the literal. -/
theorem target_quote {r : Reference} (value : String) :
    (Symbol.reference { r with name := Literal.quote value }).target = .literal value.toList := by
  have hliteral := @isLiteral_quote r value
  have hend : Literal.quote value ≠ endOfInput := by
    intro heq
    rw [heq] at hliteral
    exact absurd hliteral (by simp [Reference.isLiteral, endOfInput])
  rw [Symbol.target, if_neg hend, if_pos hliteral, Literal.decode_quote]

/-- A plain reference has no marks. -/
theorem marks_of_isPlain {r : Reference} (h : r.isPlain = true) :
    r.isNegative = false ∧ r.isPositive = false ∧ r.isOptional = false ∧ r.repeats = false ∧ r.pin = false := by
  simp only [Reference.isPlain, Bool.and_eq_true, decide_eq_true_eq, Bool.not_eq_true'] at h
  obtain ⟨⟨hrepetition, hlook⟩, hpin⟩ := h
  simp [Reference.isNegative, Reference.isPositive, Reference.isOptional, Reference.repeats, hrepetition, hlook, hpin]

/-- The match of a rule that is one target is its hit. -/
theorem plan_like_target {e : Table.Entry} {ph : Phase} (he : e.isPlain = true) (hdissolves : e.rule.fragment = true)
    (halternatives : e.alternatives = [[ph]]) (hmarks : ph.reference.isPlain = true) (answers : Answers)
    (whitespace : String) (cs : List Char) :
    Option.Rel (fun m hit => Hit.Like cs (.node m) hit) ((e.plan whitespace 0 cs).run answers).value
      ((ph.target.plan cs).run answers).value := by
  have hscene := (Table.Entry.scene_of_isPlain he whitespace 0).1
  obtain ⟨hnegative, hpositive, hoptional, hrepeats, hpin⟩ := marks_of_isPlain hmarks
  rw [Table.Entry.plan_run_value he, halternatives, Scene.alternatives, Scene.alternative, Plan.run_bind, Plan.run_bind,
    Scene.phases_cons_run]
  cases hgot : ((ph.target.plan cs).run answers).value with
  | none =>
    have hend : ((Scene.phase ⟨e.rule, whitespace, 0⟩ 1 ph false { rest := cs }).run answers).value = _ :=
      hscene.phase_run_none rfl hgot
    rw [hnegative, hpositive, hoptional, hrepeats] at hend
    rw [hend]
    exact .none
  | some hit =>
    have hend : ((Scene.phase ⟨e.rule, whitespace, 0⟩ 1 ph false { rest := cs }).run answers).value = _ :=
      hscene.phase_run_some hpin hgot
    rw [hnegative, hpositive, hrepeats] at hend
    rw [hend]
    refine .some ⟨?_, rfl⟩
    simp [Hit.adds, Match.additions, hdissolves, Growth.after]

/-! ## Parses -/

/-- Rules and what they are reworded to, the helpers among the latter told apart by their names. -/
structure Sound (w : Rewording) : Prop where
  links : ∀ l ∈ w, w.Link l
  distinct : w.after.Pairwise fun h k => isHelperName h.name = true → h.name ≠ k.name

theorem Sound.pair (hw : w.Sound) (h : (r, some r') ∈ w) : w.Pair r r' := hw.links _ h

theorem Sound.leaf (hw : w.Sound) (hh : (h, none) ∈ w) : Leaf h := hw.links _ hh

/-- The names of a rule and of the one in its place. -/
def Names (w : Rewording) (a a' : String) : Prop := ∃ r r', (r, some r') ∈ w ∧ r.name = a ∧ r'.name = a'

/-- The names of the helpers that nothing is in the place of. -/
def Left (w : Rewording) (a : String) : Prop := ∃ h, (h, none) ∈ w ∧ h.name = a

section Names

variable {a a' b b' : String} {o o' : Option Rule} {k : Rule}

/-- Among rules with different names, a name belongs to one of the links. -/
theorem eq_of_before (hnodup : (w.before.map (·.name)).Nodup) (hr : (r, o) ∈ w) (hk : (k, o') ∈ w)
    (hname : r.name = k.name) : (r, o) = (k, o') := by
  rw [before, List.map_map] at hnodup
  exact List.inj_on_of_nodup_map hnodup hr hk hname

/-- A rule that is no helper has one in its place, of the same name. -/
theorem Sound.names_self (hw : w.Sound) (hr : r ∈ w.before) (hname : isHelperName r.name = false) :
    w.Names r.name r.name := by
  obtain ⟨⟨_, o⟩, hmem, rfl⟩ := List.mem_map.1 hr
  cases o with
  | none =>
    rw [(hw.leaf hmem).helper] at hname
    cases hname
  | some r' => exact ⟨_, r', hmem, rfl, (hw.pair hmem).name hname⟩

/-- The rules in the place of others have different names. -/
theorem Sound.nodup_after (hw : w.Sound) (hnodup : (w.before.map (·.name)).Nodup) :
    (w.after.map (·.name)).Nodup := by
  have hbefore : w.Pairwise fun l m => l.1.name ≠ m.1.name := by
    rw [before, List.map_map] at hnodup
    exact List.pairwise_map.1 hnodup
  have hafter : w.Pairwise fun l m => ∀ h ∈ l.2, ∀ k ∈ m.2, isHelperName h.name = true → h.name ≠ k.name :=
    List.pairwise_filterMap.1 hw.distinct
  refine List.pairwise_map.2 (List.pairwise_filterMap.2 ?_)
  refine (hbefore.and hafter).imp_of_mem ?_
  rintro ⟨r, _⟩ ⟨k, _⟩ hr hk ⟨hname, hhelper⟩ r' rfl k' rfl heq
  cases hkind : isHelperName r'.name with
  | true => exact hhelper r' rfl k' rfl hkind heq
  | false =>
    have hr' := (hw.pair hr).name ((hw.pair hr).helper ▸ hkind)
    have hk' := (hw.pair hk).name ((hw.pair hk).helper ▸ heq ▸ hkind)
    exact hname (hr'.symm.trans (heq.trans hk'))

/-- Where no two rules have the same name, those in their place have different names as well. -/
theorem Sound.names_unique (hw : w.Sound) (hnodup : (w.before.map (·.name)).Nodup) (ha : w.Names a a')
    (hb : w.Names b b') : a = b ↔ a' = b' := by
  obtain ⟨r, r', hr, rfl, rfl⟩ := ha
  obtain ⟨k, k', hk, rfl, rfl⟩ := hb
  constructor
  · intro heq
    cases eq_of_before hnodup hr hk heq
    rfl
  · intro heq
    have hafter : w.Pairwise fun l m => ∀ h ∈ l.2, ∀ k ∈ m.2, h.name ≠ k.name :=
      List.pairwise_filterMap.1 (List.pairwise_map.1 (hw.nodup_after hnodup))
    have hsymm : Std.Symm fun l m : Rule × Option Rule => ∀ h ∈ l.2, ∀ k ∈ m.2, h.name ≠ k.name :=
      ⟨fun l m hlm h hh k hk => (hlm k hk h hh).symm⟩
    by_cases hsame : (r, some r') = (k, some k')
    · cases hsame
      rfl
    · exact absurd heq (hafter.forall hr hk hsame r' rfl k' rfl)

/-- A rule that has one in its place is no helper without. -/
theorem names_apart (hnodup : (w.before.map (·.name)).Nodup) (ha : w.Names a a') : ¬ w.Left a := by
  obtain ⟨r, r', hr, rfl, rfl⟩ := ha
  rintro ⟨h, hh, hname⟩
  cases eq_of_before hnodup hh hr hname

end Names

/-- The rule that a symbol refers to, and the one that what it is reworded to refers to. -/
theorem Symbols.refers (hw : w.Sound) (hs : w.Symbols s s') {b' : String} (hb' : s'.RefersTo b') :
    ∃ b, s.RefersTo b ∧ (b ∈ w.before.map (·.name) → w.Names b b') := by
  cases hs with
  | terminal hterminal =>
    obtain ⟨q, rfl, -⟩ := hb'
    cases hterminal
  | @itself q hname hpin =>
    refine ⟨b', hb', fun hdeclared => ?_⟩
    obtain ⟨q', hq', -, -, rfl⟩ := hb'
    cases hq'
    obtain ⟨r, hr, heq⟩ := List.mem_map.1 hdeclared
    rw [← heq] at hname ⊢
    exact hw.names_self hr hname
  | @renamed q h h' hlink hname hhelper hpin =>
    obtain ⟨q', hq', -, -, rfl⟩ := hb'
    cases hq'
    have htarget : (Symbol.reference q).target = .rule h.name := hname ▸ target_of_helper (hname ▸ hhelper)
    refine ⟨h.name, Symbol.needs?_eq_some_iff.1 (by rw [Symbol.needs?, htarget]), fun _ => ?_⟩
    exact ⟨h, h', hlink, rfl, rfl⟩
  | inlined hlink hterminal =>
    obtain ⟨t, ht, halternatives⟩ := (hw.leaf hlink).alternatives
    rw [hterminal] at halternatives
    cases halternatives
    obtain ⟨q, rfl, -⟩ := hb'
    cases ht
  | quoted hlink hterminal hname hpin =>
    have hneeds := Symbol.needs?_eq_some_iff.2 hb'
    rw [Symbol.needs?, target_quote] at hneeds
    cases hneeds

/-! ## Acceptance -/

section Acceptance

variable {a' b' whitespace : String}

/-- An alternative in the place of another. -/
theorem Sound.alternative (hw : w.Sound) (hr' : r' ∈ w.after) {alt' : List Symbol} (halt' : alt' ∈ r'.alternatives) :
    ∃ r, (r, some r') ∈ w ∧ ∃ alt ∈ r.alternatives, List.Forall₂ w.Symbols alt alt' := by
  obtain ⟨r, hr⟩ := mem_after.1 hr'
  exact ⟨r, hr, exists_mem_of_forall₂ (hw.pair hr).alternatives halt'⟩

/-- What rules begin with in their new wording, they began with. -/
theorem Sound.startsWith (hw : w.Sound) (hbefore : Table.Valid w.before whitespace)
    (h : Table.StartsWith w.after a' b') :
    ∃ a b, w.Names a a' ∧ w.Names b b' ∧ Table.StartsWith w.before a b := by
  obtain ⟨r', hr', rfl, alt', halt', s', hs', hb'⟩ := h
  obtain ⟨r, hr, alt, halt, hsymbols⟩ := hw.alternative hr' halt'
  obtain ⟨s, hs, hlike⟩ := exists_head_of_forall₂ hsymbols hs'
  obtain ⟨b, hb, hnames⟩ := hlike.refers hw hb'
  have hdeclared := hbefore.resolved r (mem_before hr) alt halt s (List.mem_of_mem_head? hs) b hb
  exact ⟨r.name, b, ⟨r, r', hr, rfl, rfl⟩, hnames hdeclared, r, mem_before hr, rfl, alt, halt, s, hs, hb⟩

/-- The induction is on the way, which names lead back along one by one. -/
theorem Sound.transGen (hw : w.Sound) (hbefore : Table.Valid w.before whitespace)
    (h : Relation.TransGen (Table.StartsWith w.after) a' b') :
    ∃ a b, w.Names a a' ∧ w.Names b b' ∧ Relation.TransGen (Table.StartsWith w.before) a b := by
  induction h with
  | single hstep =>
    obtain ⟨a, b, ha, hb, hstep⟩ := hw.startsWith hbefore hstep
    exact ⟨a, b, ha, hb, .single hstep⟩
  | tail _ hstep ih =>
    obtain ⟨a, b, ha, hb, hway⟩ := ih
    obtain ⟨b₁, c, hb₁, hc, hstep⟩ := hw.startsWith hbefore hstep
    obtain rfl := (hw.names_unique hbefore.distinct hb hb₁).2 rfl
    exact ⟨a, c, ha, hc, hway.tail hstep⟩

/-- Rules are fit for parsing in their new wording too. -/
theorem Sound.valid (hw : w.Sound) (hbefore : Table.Valid w.before whitespace) :
    Table.Valid w.after whitespace where
  distinct := hw.nodup_after hbefore.distinct
  nonempty r' hr' := by
    obtain ⟨r, hr⟩ := mem_after.1 hr'
    obtain ⟨alt, halt, hne⟩ := hbefore.nonempty r (mem_before hr)
    obtain ⟨alt', halt', hsymbols⟩ := exists_mem_of_forall₂ (hw.pair hr).alternatives.flip halt
    refine ⟨alt', halt', fun hnil => hne ?_⟩
    have hlength := List.Forall₂.length_eq hsymbols
    rw [hnil] at hlength
    exact List.length_eq_zero_iff.1 hlength
  resolved r' hr' alt' halt' s' hs' b' hb' := by
    obtain ⟨r, hr, alt, halt, hsymbols⟩ := hw.alternative hr' halt'
    obtain ⟨s, hs, hlike⟩ := exists_mem_of_forall₂ hsymbols hs'
    obtain ⟨b, hb, hnames⟩ := hlike.refers hw hb'
    obtain ⟨k, k', hk, -, rfl⟩ := hnames (hbefore.resolved r (mem_before hr) alt halt s hs b hb)
    exact List.mem_map_of_mem (mem_after.2 ⟨k, hk⟩)
  lookahead r' hr' alt' halt' ref' href' := by
    obtain ⟨r, hr, alt, halt, hsymbols⟩ := hw.alternative hr' halt'
    obtain ⟨s, hs, hlike⟩ := exists_mem_of_forall₂ hsymbols href'
    have hall := hbefore.lookahead r (mem_before hr) alt halt
    cases hlike with
    | terminal hterminal => cases hterminal
    | itself hname hpin => exact hall _ hs
    | @renamed q => exact hall q hs
    | inlined hlink hterminal =>
      obtain ⟨t, ht, halternatives⟩ := (hw.leaf hlink).alternatives
      rw [hterminal] at halternatives
      cases halternatives
      cases ht
    | @quoted q => exact hall q hs
  recovery r' hr' target htarget := by
    obtain ⟨r, hr⟩ := mem_after.1 hr'
    rw [(hw.pair hr).plain'.strict] at htarget
    cases htarget
  whitespace := by
    rintro ⟨r', hr', hskips⟩
    obtain ⟨r, hr⟩ := mem_after.1 hr'
    exact absurd hskips (hw.pair hr).plain'.tight
  acyclic a' hway := by
    obtain ⟨a, b, ha, hb, hway⟩ := hw.transGen hbefore hway
    obtain rfl := (hw.names_unique hbefore.distinct ha hb).2 rfl
    exact hbefore.acyclic a hway
  entry := by
    obtain ⟨r, hr, hfragment, hname⟩ := hbefore.entry
    obtain ⟨⟨_, o⟩, hmem, rfl⟩ := List.mem_map.1 hr
    cases o with
    | none =>
      rw [(hw.leaf hmem).helper] at hname
      cases hname
    | some r' =>
      have hpair := hw.pair hmem
      exact ⟨r', mem_after.2 ⟨_, hmem⟩, hpair.fragment.trans hfragment, hpair.helper.trans hname⟩

/-- A rule named like the end of the input begins with itself in its new wording only if it did before. -/
theorem Sound.not_endStartsItself (hw : w.Sound) (hbefore : ¬ Table.EndStartsItself w.before) :
    ¬ Table.EndStartsItself w.after := by
  rintro ⟨r', hr', hname, alt', halt', s', hs', hend⟩
  obtain ⟨r, hr, alt, halt, hsymbols⟩ := hw.alternative hr' halt'
  obtain ⟨s, hs, hlike⟩ := exists_head_of_forall₂ hsymbols hs'
  have hpair := hw.pair hr
  have hhelper : isHelperName r'.name = false := by
    rw [hname]
    decide
  refine hbefore ⟨r, mem_before hr, (hpair.name (hpair.helper ▸ hhelper)).symm.trans hname, alt, halt, s, hs, ?_⟩
  cases hlike with
  | terminal hterminal => exact hend
  | itself hname hpin => exact hend
  | @renamed q h h' hlink hname hhelper hpin =>
    have hnamed : ({ q with name := h'.name } : Reference).name = endOfInput := by
      simp only [Symbol.ruleName?] at hend
      split at hend
      · cases hend
      · exact Option.some.inj hend
    have hhelper' : isHelperName h'.name = true := (hw.pair hlink).helper.trans hhelper
    rw [show h'.name = endOfInput from hnamed] at hhelper'
    exact absurd hhelper' (by decide)
  | inlined hlink hterminal =>
    obtain ⟨t, ht, halternatives⟩ := (hw.leaf hlink).alternatives
    rw [hterminal] at halternatives
    cases halternatives
    cases s' with
    | literal value => cases hend
    | pattern p => cases hend
    | reference q => cases ht
  | @quoted q h value hlink hterminal hname hpin =>
    rw [Symbol.ruleName?, if_pos (isLiteral_quote value)] at hend
    cases hend

end Acceptance

/-! ## Settled rules -/

section Settled

variable {whitespace : String}

/-- The rules as tables keep them. -/
def settle (whitespace : String) (w : Rewording) : Rewording :=
  w.map fun l => (l.1.settled whitespace, l.2.map (Rule.settled whitespace))

theorem before_settle (whitespace : String) (w : Rewording) :
    (w.settle whitespace).before = w.before.map (Rule.settled whitespace) := by
  simp [settle, before]

theorem after_settle (whitespace : String) (w : Rewording) :
    (w.settle whitespace).after = w.after.map (Rule.settled whitespace) := by
  simp [settle, after, List.filterMap_map, List.map_filterMap]

theorem mem_settle (whitespace : String) {o : Option Rule} (h : (r, o) ∈ w) :
    (r.settled whitespace, o.map (Rule.settled whitespace)) ∈ w.settle whitespace :=
  List.mem_map_of_mem h

/-- Symbols are reworded alike when the white-space rules are settled. -/
theorem Symbols.settle (h : w.Symbols s s') (whitespace : String) : (w.settle whitespace).Symbols s s' := by
  cases h with
  | terminal h => exact .terminal h
  | itself hname hpin => exact .itself hname hpin
  | @renamed q h h' hlink hname hhelper hpin =>
    have hmem := mem_settle whitespace hlink
    rw [← Rule.settled_name whitespace h] at hname hhelper
    rw [← Rule.settled_name whitespace h']
    exact .renamed hmem hname hhelper hpin
  | @inlined h s hlink hterminal =>
    rw [← Rule.settled_name whitespace h]
    exact .inlined (mem_settle whitespace hlink) ((Rule.settled_alternatives whitespace h).trans hterminal)
  | @quoted q h value hlink hterminal hname hpin =>
    rw [← Rule.settled_name whitespace h] at hname
    exact .quoted (mem_settle whitespace hlink) ((Rule.settled_alternatives whitespace h).trans hterminal) hname hpin

/-- Settling the white-space rule keeps a rewording sound. -/
theorem Sound.settle (hw : w.Sound) (whitespace : String) : (w.settle whitespace).Sound where
  links := by
    intro l hl
    obtain ⟨⟨r, o⟩, hr, rfl⟩ := List.mem_map.1 hl
    cases o with
    | none =>
      have hleaf := hw.leaf hr
      refine Leaf.mk (hleaf.plain.settled whitespace) ?_ ?_ ?_
      · rw [Rule.settled_name]
        exact hleaf.helper
      · rw [Rule.settled_fragment]
        exact hleaf.dissolves
      · rw [Rule.settled_alternatives]
        exact hleaf.alternatives
    | some r' =>
      have hpair := hw.pair hr
      refine Pair.mk (hpair.plain.settled whitespace) (hpair.plain'.settled whitespace) ?_ ?_ ?_ ?_ ?_
      · rw [Rule.settled_fragment, Rule.settled_fragment]
        exact hpair.fragment
      · rw [Rule.settled_name, Rule.settled_name]
        exact hpair.helper
      · rw [Rule.settled_name, Rule.settled_name]
        exact hpair.name
      · rw [Rule.settled_name, Rule.settled_fragment]
        exact hpair.dissolves
      · rw [Rule.settled_alternatives, Rule.settled_alternatives]
        exact hpair.alternatives.imp fun _ _ ha => ha.imp fun _ _ hs => hs.settle whitespace
  distinct := by
    rw [after_settle]
    refine List.pairwise_map.2 (hw.distinct.imp fun h => ?_)
    rw [Rule.settled_name, Rule.settled_name]
    exact h

end Settled

/-! ## Parses -/

theorem exists_mem_map_settled {whitespace a : String} {rules : List Rule} {e : Table.Entry} :
    (∃ r ∈ rules.map (Rule.settled whitespace), r.name = a ∧ e = ⟨r, r.phases⟩) ↔
      ∃ r ∈ rules, r.name = a ∧ e = ⟨r.settled whitespace, (r.settled whitespace).phases⟩ := by
  simp

section Parses

variable {t t' : Table} {n : Nat} {answers answers' : Answers}

/-- What stands in the place of a reference to a helper without one is a terminal. -/
theorem isTerminal_of_inlined (hw : w.Sound) (hlink : (h, none) ∈ w) (hterminal : h.alternatives = [[s]]) :
    s.isTerminal = true := by
  obtain ⟨t, ht, halternatives⟩ := (hw.leaf hlink).alternatives
  rw [hterminal] at halternatives
  cases halternatives
  exact ht

/-- No symbol commits its alternative, before or after. -/
theorem Symbols.pin (hw : w.Sound) (hs : w.Symbols s s') :
    s.asReference.pin = false ∧ s'.asReference.pin = false := by
  have hnone : ∀ {s : Symbol}, s.isTerminal = true → s.asReference.pin = false := fun hterminal =>
    (marks_of_isPlain (isPlain_asReference hterminal)).2.2.2.2
  cases hs with
  | terminal hterminal => exact ⟨hnone hterminal, hnone hterminal⟩
  | itself hname hpin => exact ⟨hpin, hpin⟩
  | renamed hlink hname hhelper hpin => exact ⟨hpin, hpin⟩
  | inlined hlink hterminal => exact ⟨rfl, hnone (isTerminal_of_inlined hw hlink hterminal)⟩
  | quoted hlink hterminal hname hpin => exact ⟨hpin, hpin⟩

/-- The entries of the tables of a rewording. -/
structure Tables (w : Rewording) (t t' : Table) : Prop where
  before : ∀ a e, t.entry? a = some e ↔ ∃ r ∈ w.before, r.name = a ∧ e = ⟨r, r.phases⟩
  after : ∀ a e, t'.entry? a = some e ↔ ∃ r ∈ w.after, r.name = a ∧ e = ⟨r, r.phases⟩

/-- A terminal matches as the helper for it does. -/
theorem target_like_leaf (hw : w.Sound) (ht : w.Tables t t')
    (hanswers : Table.AnswersLike w.Names w.Left t n answers answers') (hlink : (h, none) ∈ w)
    (hterminal : h.alternatives = [[s]]) {cs : List Char} (hcs : cs.length ≤ n) :
    Option.Rel (Hit.Like cs) (((Target.rule h.name).plan cs).run answers).value
      ((s.target.plan cs).run answers').value := by
  have hkind := isTerminal_of_inlined hw hlink hterminal
  have hmarks := isPlain_asReference hkind
  have hphases : h.phases = [[s.phase]] := by rw [Rule.phases, hterminal, List.map_singleton, List.map_singleton]
  have hplain : Table.Entry.isPlain ⟨h, h.phases⟩ = true := by
    refine Table.Entry.isPlain_of_rule (hw.leaf hlink).plain ?_
    rw [hterminal]
    simpa using (marks_of_isPlain hmarks).2.2.2.2
  have hanswer := hanswers.leaves h.name ⟨h, h.phases⟩ cs ⟨h, hlink, rfl⟩
    ((ht.before _ _).2 ⟨h, mem_before hlink, rfl, rfl⟩) hcs
  have hrun : (((Target.rule h.name).plan cs).run answers).value = (answers h.name cs).value.map .node := rfl
  obtain ⟨got, hgot⟩ := Target.plan_terminal (isTerminal_target hkind) cs
  have hlike := plan_like_target hplain (hw.leaf hlink).dissolves hphases hmarks (fun _ _ => ⟨none, []⟩) t.whitespace cs
  have hphase : s.phase.target.plan cs = .done got := hgot
  rw [hphase] at hlike
  rw [hrun, hanswer, hgot]
  generalize ((Table.Entry.plan ⟨h, h.phases⟩ t.whitespace 0 cs).run fun _ _ => ⟨none, []⟩).value = found at hlike ⊢
  cases hlike with
  | none => exact .none
  | some hsame => exact .some hsame

/-- A phase targets the rule that its symbol refers to. -/
theorem target_of_phase {s : Symbol} {name : String} (h : s.phase.target = .rule name) : s.RefersTo name := by
  have htarget : s.target = .rule name := h
  exact Symbol.needs?_eq_some_iff.1 (by rw [Symbol.needs?, htarget])

/-- A symbol does what it is reworded to. -/
theorem Symbols.phaseLike (hw : w.Sound) (ht : w.Tables t t')
    (hanswers : Table.AnswersLike w.Names w.Left t n answers answers') (hs : w.Symbols s s')
    (hdeclared : ∀ b, s.RefersTo b → b ∈ w.before.map (·.name)) :
    Scene.PhaseLike answers answers' n s.phase s'.phase := by
  obtain ⟨hpin, hpin'⟩ := hs.pin hw
  have hshrink := fun (target : Target) cs (_ : cs.length ≤ n) => Target.shrink hanswers.shrink target cs
  cases hs with
  | terminal hterminal =>
    refine hanswers.phaseLike hpin fun name htarget => ?_
    obtain ⟨q, rfl, -⟩ := target_of_phase htarget
    cases hterminal
  | @itself q hname =>
    refine hanswers.phaseLike hpin fun name htarget => ?_
    have hrefers := target_of_phase htarget
    obtain ⟨r, hr, rfl⟩ := List.mem_map.1 (hdeclared name hrefers)
    obtain ⟨q', hq', -, -, hsame⟩ := hrefers
    cases hq'
    exact hw.names_self hr (hsame ▸ hname)
  | @renamed q h h' hlink hname hhelper =>
    have htarget : (Symbol.reference q).target = .rule h.name := hname ▸ target_of_helper (hname ▸ hhelper)
    have htarget' : (Symbol.reference { q with name := h'.name }).target = .rule h'.name :=
      target_of_helper ((hw.pair hlink).helper.trans hhelper)
    refine ⟨rfl, rfl, hpin, hpin', fun cs hcs => ?_, hshrink _⟩
    rw [Symbol.phase, Symbol.phase, htarget, htarget']
    exact Target.rule_like (hanswers.pairs _ _ cs ⟨h, h', hlink, rfl, rfl⟩ hcs)
  | @inlined h s hlink hterminal =>
    have hhelper := (hw.leaf hlink).helper
    have hmarks := isPlain_asReference (isTerminal_of_inlined hw hlink hterminal)
    simp only [Reference.isPlain, Bool.and_eq_true, decide_eq_true_eq] at hmarks
    have htarget : (Symbol.reference (.plain h.name)).target = .rule h.name := target_of_helper hhelper
    refine ⟨hmarks.1.1, hmarks.1.2, hpin, hpin', fun cs hcs => ?_, hshrink _⟩
    rw [Symbol.phase, Symbol.phase, htarget]
    exact target_like_leaf hw ht hanswers hlink hterminal hcs
  | @quoted q h value hlink hterminal hname =>
    have hhelper := (hw.leaf hlink).helper
    have htarget : (Symbol.reference q).target = .rule h.name := hname ▸ target_of_helper (hname ▸ hhelper)
    refine ⟨rfl, rfl, hpin, hpin', fun cs hcs => ?_, hshrink _⟩
    rw [Symbol.phase, Symbol.phase, htarget, target_quote]
    exact target_like_leaf hw ht hanswers hlink hterminal hcs

/-- Alternatives do what they are reworded to. -/
theorem phasesLike_of_symbols (hw : w.Sound) (ht : w.Tables t t')
    (hanswers : Table.AnswersLike w.Names w.Left t n answers answers') {alt alt' : List Symbol}
    (hsymbols : List.Forall₂ w.Symbols alt alt')
    (hdeclared : ∀ s ∈ alt, ∀ b, s.RefersTo b → b ∈ w.before.map (·.name)) :
    Scene.PhasesLike answers answers' n (alt.map Symbol.phase) (alt'.map Symbol.phase) := by
  induction hsymbols with
  | nil => exact .nil
  | cons hs _ ih =>
    rw [List.forall_mem_cons] at hdeclared
    exact (ih hdeclared.2).cons (hs.phaseLike hw ht hanswers hdeclared.1)

/-- The helper for a terminal asks for no rule. -/
theorem Leaf.asksOnly (hleaf : Leaf h) (whitespace : String) (depth : Nat) (cs : List Char) :
    (Table.Entry.plan ⟨h, h.phases⟩ whitespace depth cs).AsksOnly fun _ => False := by
  obtain ⟨s, hs, halternatives⟩ := hleaf.alternatives
  have hneeds : s.needs? = none := by
    cases s with
    | literal value => rfl
    | pattern p => rfl
    | reference r => cases hs
  have hasks : h.asks whitespace = [] := by
    simp [Rule.asks, halternatives, hneeds, hleaf.plain.strict, Rule.skipsWhitespace, hleaf.plain.tight]
  refine (Table.asksOnly_plan rfl whitespace depth cs).mono fun name hname => ?_
  rw [hasks] at hname
  cases hname

theorem pin_of_pair (hw : w.Sound) (hpair : w.Pair r r') :
    (∀ a ∈ r.alternatives, ∀ s ∈ a, s.asReference.pin = false) ∧
      ∀ a ∈ r'.alternatives, ∀ s ∈ a, s.asReference.pin = false := by
  constructor
  · intro a ha s hs
    obtain ⟨a', -, hsymbols⟩ := exists_mem_of_forall₂ hpair.alternatives.flip ha
    obtain ⟨s', -, hlike⟩ := exists_mem_of_forall₂ hsymbols.flip hs
    exact (hlike.pin hw).1
  · intro a' ha' s' hs'
    obtain ⟨a, -, hsymbols⟩ := exists_mem_of_forall₂ hpair.alternatives ha'
    obtain ⟨s, -, hlike⟩ := exists_mem_of_forall₂ hsymbols hs'
    exact (hlike.pin hw).2

/-- Rules are alike in both tables. -/
theorem Sound.like (hw : w.Sound) {whitespace : String} (hvalid : Table.Valid w.before whitespace)
    (ht : w.Tables t t') : Table.Like w.Names w.Left t t' where
  unique _ _ _ _ ha hb := hw.names_unique hvalid.distinct ha hb
  apart _ _ ha := names_apart hvalid.distinct ha
  leaves := by
    rintro _ ⟨h, hlink, rfl⟩
    exact ⟨_, (ht.before _ _).2 ⟨h, mem_before hlink, rfl, rfl⟩, (hw.leaf hlink).asksOnly t.whitespace⟩
  entries := by
    rintro _ _ ⟨r, r', hlink, rfl, rfl⟩
    have hpair := hw.pair hlink
    obtain ⟨hpin, hpin'⟩ := pin_of_pair hw hpair
    refine ⟨_, _, (ht.before _ _).2 ⟨r, mem_before hlink, rfl, rfl⟩,
      (ht.after _ _).2 ⟨r', mem_after.2 ⟨r, hlink⟩, rfl, rfl⟩,
      Table.Entry.isPlain_of_rule hpair.plain hpin, Table.Entry.isPlain_of_rule hpair.plain' hpin',
      hpair.fragment, ?_, ?_⟩
    · cases hhelper : isHelperName r.name with
      | true => exact .inr (hpair.dissolves hhelper)
      | false => exact .inl (hpair.name hhelper).symm
    · intro n answers answers' hanswers
      refine List.forall₂_map_left_iff.2 (List.forall₂_map_right_iff.2 ?_)
      have hall := (List.forall₂_and_left _ _).2 ⟨fun alt halt => halt, hpair.alternatives⟩
      refine hall.imp fun alt alt' hsymbols => phasesLike_of_symbols hw ht hanswers hsymbols.2 fun s hs b hb => ?_
      exact hvalid.resolved r (mem_before hlink) alt hsymbols.1 s hs b hb

/-- **Reworded rules parse alike.** They are accepted where the rules are, and from a rule that is no helper every
input comes to the same; where the depth of rules is bounded, this holds if no helper lost its place. -/
theorem Sound.parse_eq (hw : w.Sound) {options : Options} {p : Parser}
    (hbuild : Parser.build w.before options = .ok p) : ∃ p', Parser.build w.after options = .ok p' ∧
      (options.maxDepth = none ∨ (∀ a, ¬ w.Left a) → ∀ r ∈ w.before, isHelperName r.name = false →
        ∀ input, p'.parse input (some r.name) = p.parse input (some r.name)) := by
  obtain ⟨htable, rfl⟩ := Parser.build_eq_ok_iff.1 hbuild
  have hsettled := hw.settle p.options.whitespaceRule
  have hproblems := (Table.build_eq_ok_iff.1 htable).1
  rw [← before_settle, Table.problems_eq_nil_iff_valid] at hproblems
  obtain ⟨hvalid, hend⟩ := hproblems
  obtain ⟨p', hp'⟩ : ∃ p', Parser.build w.after p.options = .ok p' := by
    refine ⟨⟨_, p.options⟩, Parser.build_eq_ok_iff.2 ⟨Table.build_eq_ok_iff.2 ⟨?_, rfl⟩, rfl⟩⟩
    rw [← after_settle, Table.problems_eq_nil_iff_valid]
    exact ⟨hsettled.valid hvalid, hsettled.not_endStartsItself hend⟩
  obtain ⟨htable', hoptions⟩ := Parser.build_eq_ok_iff.1 hp'
  have ht : (w.settle p.options.whitespaceRule).Tables p.table p'.table := by
    constructor
    · intro a e
      rw [Table.entry?_eq_some_iff htable, before_settle, exists_mem_map_settled]
    · intro a e
      rw [Table.entry?_eq_some_iff htable', after_settle, exists_mem_map_settled]
  refine ⟨p', hp', fun hdepth r hr hname input => ?_⟩
  have hself : (w.settle p.options.whitespaceRule).Names r.name r.name := by
    have hmem : r.settled p.options.whitespaceRule ∈ (w.settle p.options.whitespaceRule).before := by
      rw [before_settle]
      exact List.mem_map_of_mem hr
    have hsame := hsettled.names_self hmem (by rwa [Rule.settled_name])
    rwa [Rule.settled_name] at hsame
  refine Parser.parse_like (hsettled.like hvalid ht) hoptions (hdepth.imp_right fun hleft a ha => ?_) hself input
  obtain ⟨h, hlink, rfl⟩ := ha
  obtain ⟨⟨k, o⟩, hk, heq⟩ := List.mem_map.1 hlink
  cases o with
  | none => exact hleft k.name ⟨k, hk, rfl⟩
  | some k' => cases heq

end Parses

end Rewording

end Grammarian
