import Grammarian.Proofs.Notation.Embedding

/-!
# Parses of rules with their literals taken apart

Their references are those that they had, so the rules are accepted where they were. From a rule they parse alike
if all literals within its reach mean the same taken apart: such a literal stays whole, or nothing in it is escaped.
-/

namespace Grammarian

/-! ## The same references -/

/-- Symbols in the place of others. The references among them were there before, and so was one at the front. -/
structure SameReferences (alt alt' : List Symbol) : Prop where
  nonempty : alt ≠ [] → alt' ≠ []
  mem : ∀ r, .reference r ∈ alt' → .reference r ∈ alt
  head : ∀ r, .reference r ∈ alt'.head? → .reference r ∈ alt.head?

theorem SameReferences.nil : SameReferences [] [] := ⟨id, fun _ => id, fun _ => id⟩

theorem SameReferences.cons {s : Symbol} {part symbols symbols' : List Symbol} (hs : SameReferences [s] part)
    (h : SameReferences symbols symbols') : SameReferences (s :: symbols) (part ++ symbols') where
  nonempty _ := List.append_ne_nil_of_left_ne_nil (hs.nonempty (List.cons_ne_nil _ _)) _
  mem r hr := by
    rcases List.mem_append.1 hr with hr | hr
    · exact List.mem_cons.2 (.inl (List.mem_singleton.1 (hs.mem r hr)))
    · exact List.mem_cons_of_mem _ (h.mem r hr)
  head r hr := by
    obtain ⟨first, more, rfl⟩ := List.exists_cons_of_ne_nil (hs.nonempty (List.cons_ne_nil _ _))
    exact hs.head r hr

/-- A rule with other alternatives that have the references of its own. -/
def Rule.Rephrases (r r' : Rule) : Prop :=
  ∃ alternatives, r' = { r with alternatives } ∧ List.Forall₂ SameReferences r.alternatives alternatives

theorem Rule.Rephrases.settled {r r' : Rule} (h : r.Rephrases r') (whitespace : String) :
    (r.settled whitespace).Rephrases (r'.settled whitespace) := by
  obtain ⟨alternatives, rfl, hsame⟩ := h
  refine ⟨alternatives, ?_, by rwa [settled_alternatives]⟩
  simp only [Rule.settled]
  split
  · rfl
  · rfl

namespace Table

variable {rules rules' : List Rule} {whitespace a b : String}

/-- Rules rephrased keep their names. -/
theorem names_of_rephrases (h : List.Forall₂ Rule.Rephrases rules rules') :
    rules'.map (·.name) = rules.map (·.name) := by
  induction h with
  | nil => rfl
  | cons hr _ ih =>
    obtain ⟨alternatives, rfl, -⟩ := hr
    rw [List.map_cons, List.map_cons, ih]

/-- An alternative of one of the rules in the place of others. -/
theorem exists_rephrased (h : List.Forall₂ Rule.Rephrases rules rules') {r' : Rule} (hr' : r' ∈ rules')
    {alt' : List Symbol} (halt' : alt' ∈ r'.alternatives) :
    ∃ r ∈ rules, r.name = r'.name ∧ ∃ alt ∈ r.alternatives, SameReferences alt alt' := by
  obtain ⟨r, hr, alternatives, rfl, hsame⟩ := exists_mem_of_forall₂ h hr'
  exact ⟨r, hr, rfl, exists_mem_of_forall₂ hsame halt'⟩

/-- A rule rephrased starts with no rule that it did not start with before. -/
theorem startsWith_of_rephrases (h : List.Forall₂ Rule.Rephrases rules rules') (hstep : StartsWith rules' a b) :
    StartsWith rules a b := by
  obtain ⟨r', hr', rfl, alt', halt', s, hs, q, rfl, hrefers⟩ := hstep
  obtain ⟨r, hr, hname, alt, halt, hsame⟩ := exists_rephrased h hr' halt'
  exact ⟨r, hr, hname, alt, halt, _, hsame.head q hs, q, rfl, hrefers⟩

/-- Valid rules rephrased are valid. -/
theorem Valid.rephrases (h : List.Forall₂ Rule.Rephrases rules rules') (hvalid : Valid rules whitespace) :
    Valid rules' whitespace := by
  have hnames := names_of_rephrases h
  refine ⟨hnames ▸ hvalid.distinct, ?_, ?_, ?_, ?_, ?_, ?_, ?_⟩
  · intro r' hr'
    obtain ⟨r, hr, alternatives, rfl, hsame⟩ := exists_mem_of_forall₂ h hr'
    obtain ⟨alt, halt, hne⟩ := hvalid.nonempty r hr
    obtain ⟨alt', halt', hlike⟩ := exists_mem_of_forall₂ hsame.flip halt
    exact ⟨alt', halt', hlike.nonempty hne⟩
  · rintro r' hr' alt' halt' s hs name ⟨q, rfl, hrefers⟩
    obtain ⟨r, hr, -, alt, halt, hsame⟩ := exists_rephrased h hr' halt'
    rw [hnames]
    exact hvalid.resolved r hr alt halt _ (hsame.mem q hs) name ⟨q, rfl, hrefers⟩
  · intro r' hr' alt' halt' q hq
    obtain ⟨r, hr, -, alt, halt, hsame⟩ := exists_rephrased h hr' halt'
    exact hvalid.lookahead r hr alt halt q (hsame.mem q hq)
  · intro r' hr' target htarget
    obtain ⟨r, hr, alternatives, rfl, -⟩ := exists_mem_of_forall₂ h hr'
    rw [hnames]
    exact hvalid.recovery r hr target htarget
  · rintro ⟨r', hr', hskips⟩
    obtain ⟨r, hr, alternatives, rfl, -⟩ := exists_mem_of_forall₂ h hr'
    rw [hnames]
    exact hvalid.whitespace ⟨r, hr, hskips⟩
  · exact fun name hway => hvalid.acyclic name (hway.lift id fun _ _ => startsWith_of_rephrases h)
  · obtain ⟨r, hr, hentry⟩ := hvalid.entry
    obtain ⟨r', hr', alternatives, rfl, -⟩ := exists_mem_of_forall₂ h.flip hr
    exact ⟨_, hr', hentry⟩

/-- Rules with other alternatives that have the same references are accepted with them. -/
theorem build_of_rephrases {t : Table} (h : List.Forall₂ Rule.Rephrases rules rules')
    (hbuild : build rules whitespace = .ok t) : build rules' whitespace = .ok (ofRules rules' whitespace) := by
  have hsettled : List.Forall₂ Rule.Rephrases (rules.map (Rule.settled whitespace))
      (rules'.map (Rule.settled whitespace)) :=
    List.forall₂_map_left_iff.2 (List.forall₂_map_right_iff.2 (h.imp fun _ _ hr => hr.settled whitespace))
  obtain ⟨hvalid, hend⟩ := problems_eq_nil_iff_valid.1 (build_eq_ok_iff.1 hbuild).1
  refine build_eq_ok_iff.2 ⟨problems_eq_nil_iff_valid.2 ⟨hvalid.rephrases hsettled, ?_⟩, rfl⟩
  rintro ⟨r', hr', hname, alt', halt', s, hs, hnamed⟩
  cases s with
  | reference q =>
    obtain ⟨r, hr, hsame, alt, halt, hlike⟩ := exists_rephrased hsettled hr' halt'
    exact hend ⟨r, hr, hsame.trans hname, alt, halt, _, hlike.head q hs, hnamed⟩
  | literal value => cases hnamed
  | pattern p => cases hnamed

end Table

namespace Notation

/-! ## Literals that mean the same taken apart -/

/-- Whether a literal means the same taken apart: it stays whole, or nothing in it is escaped. -/
def keepsText (text : String) : Bool :=
  !text.toList.all isSplittable || '\\' ∉ (inner text.toList).dropLast

/-- Whether a symbol means the same where its literals are taken apart and it may refer to these rules. -/
def keepsSymbol (names : List String) : Symbol → Bool
  | .literal value => keepsText (Literal.quote value)
  | s => s.needs?.all names.contains

/-- Whether the rules with these names refer to such rules only, and all their literals mean the same taken apart. -/
def keptAmong (rules : List Rule) (names : List String) : Bool :=
  rules.all fun r => !names.contains r.name || r.alternatives.all (·.all (keepsSymbol names))

/-- The text is that of a literal as values are written. -/
def IsQuote (text : String) : Prop := ∃ value, text = Literal.quote value ∧ IsQuoted (Literal.quoted value.toList)

section Literals

variable {value : String} {part symbols symbols' : List Symbol} {s : Symbol} {texts : List String}

/-- A symbol whose literal is written as values are. -/
theorem SymbolApart.cases_quote (h : SymbolApart texts s part) (htexts : ∀ text ∈ texts, IsQuote text) :
    (∃ value, s = .literal value ∧ IsQuoted (Literal.quoted value.toList) ∧
      splitLiteral (Literal.quote value) false = .ok part) ∨ part = [s] ∧ ∀ value, s ≠ .literal value := by
  cases h with
  | literal hsplit =>
    obtain ⟨value, rfl, hquoted⟩ := htexts _ List.mem_cons_self
    exact .inl ⟨value, ofText_quote value, hquoted, hsplit⟩
  | other hs => exact .inr ⟨rfl, hs⟩

theorem sameReferences_symbolApart (h : SymbolApart texts s part) (htexts : ∀ text ∈ texts, IsQuote text) :
    SameReferences [s] part := by
  rcases h.cases_quote htexts with ⟨value, rfl, hquoted, hsplit⟩ | ⟨rfl, -⟩
  · rcases splitLiteral_ok hsplit with rfl | ⟨hne, hpatterns⟩
    · have hwhole : Symbol.ofText (String.ofList (Literal.quoted value.toList)) = .literal value := ofText_quote value
      rw [hwhole]
      exact ⟨id, fun _ => id, fun _ => id⟩
    · have hnone : ∀ r, Symbol.reference r ∉ part := by
        intro r hr
        obtain ⟨p, hp, -⟩ := hpatterns _ hr
        cases hp
      exact ⟨fun _ => hne, fun r hr => absurd hr (hnone r), fun r hr => absurd (List.mem_of_mem_head? hr) (hnone r)⟩
  · exact ⟨id, fun _ => id, fun _ => id⟩

/-- Of lists related along texts, each of which is known something of, any two members are related along such texts. -/
theorem Along.pairs {α β : Type} {R : List String → α → β → Prop} {P : String → Prop} {as : List α} {bs : List β}
    (h : Along R texts as bs) (htexts : ∀ text ∈ texts, P text) :
    List.Forall₂ (fun a b => ∃ texts, (∀ text ∈ texts, P text) ∧ R texts a b) as bs := by
  induction h with
  | nil => exact .nil
  | cons h _ ih =>
    rw [List.forall_mem_append] at htexts
    exact .cons ⟨_, htexts.1, h⟩ (ih htexts.2)

/-- Symbols apart by quotes refer to the same rules. -/
theorem sameReferences_apart (h : Apart texts symbols symbols') (htexts : ∀ text ∈ texts, IsQuote text) :
    SameReferences symbols symbols' := by
  obtain ⟨parts, hparts, rfl⟩ := h
  induction hparts with
  | nil => exact .nil
  | cons hs _ ih =>
    rw [List.forall_mem_append] at htexts
    exact (sameReferences_symbolApart hs htexts.1).cons (ih htexts.2)

/-- Taking literals apart leaves the references of rules as they are. -/
theorem rephrases_rulesApart {rules rules' : List Rule} (h : RulesApart texts rules rules')
    (htexts : ∀ text ∈ texts, IsQuote text) : List.Forall₂ Rule.Rephrases rules rules' := by
  refine (h.pairs htexts).imp ?_
  rintro r _ ⟨texts, htexts, alternatives, halternatives, rfl⟩
  refine ⟨alternatives, rfl, (halternatives.pairs htexts).imp ?_⟩
  rintro alt alt' ⟨texts, htexts, happly⟩
  exact sameReferences_apart happly htexts

/-- A literal that means the same taken apart, and phases that do the same behind it. -/
theorem phasesLike_literal {answers answers' : Answers} {n : Nat} {phs phs' : List Phase}
    (hquoted : IsQuoted (Literal.quoted value.toList)) (hsplit : splitLiteral (Literal.quote value) false = .ok part)
    (hkeeps : keepsText (Literal.quote value) = true) (hphs : Scene.PhasesLike answers answers' n phs phs') :
    Scene.PhasesLike answers answers' n ((Symbol.literal value).phase :: phs) (part.map Symbol.phase ++ phs') := by
  have hinner : (Literal.quote value).toList.tail.dropLast = inner (Literal.quoted value.toList) := by
    rw [Literal.quote, String.toList_ofList, inner]
  have hvalue : Literal.unescaped (inner (Literal.quoted value.toList)) = value.toList := by
    rw [← decode_eq_unescaped hquoted]
    exact congrArg String.toList (Literal.decode_quote value)
  rw [splitLiteral, hinner] at hsplit
  rw [keepsText, Literal.quote, String.toList_ofList] at hkeeps
  split at hsplit
  next =>
    obtain rfl := Except.ok.inj hsplit
    rw [ofText_quote]
    have hitself : Scene.PhaseLike answers answers' n (Symbol.literal value).phase (Symbol.literal value).phase :=
      ⟨rfl, rfl, rfl, rfl, fun cs _ => Target.terminal_like rfl cs, fun cs _ => Target.terminal_shrink rfl cs⟩
    exact hphs.cons hitself
  next hapart =>
    rw [Literal.quote, String.toList_ofList] at hapart
    simp only [Bool.or_eq_true, Bool.not_eq_true', not_or, Bool.not_eq_true, Bool.not_eq_false,
      List.isEmpty_eq_false_iff] at hapart
    obtain ⟨hne, hall⟩ := hapart
    have hplain : inner (Literal.quoted value.toList) = value.toList := by
      rw [hall] at hkeeps
      rw [← Literal.unescaped_of_not_mem (of_decide_eq_true hkeeps), hvalue]
    have hsplittable : ∀ c ∈ value.toList, isSplittable c = true := by
      intro c hc
      rw [← hplain] at hc
      exact List.all_eq_true.1 hall c (List.mem_of_mem_tail (List.mem_of_mem_dropLast hc))
    obtain ⟨symbols, hsymbols, heach⟩ := exists_charPatterns false hsplittable
    rw [hplain, hsymbols] at hsplit
    obtain rfl := Except.ok.inj hsplit
    have hchars : List.Forall₂ (fun c (ph : Phase) => ph.reference.isPlain = true ∧ Scene.IsChar c ph.target)
        value.toList (symbols.map Symbol.phase) := by
      refine List.forall₂_map_right_iff.2 ((List.forall₂_map_left_iff.1 heach).imp fun c s hs => ⟨hs.1, ?_⟩)
      intro answers input
      refine (hs.2 answers input).trans ?_
      cases input with
      | nil => rfl
      | cons d rest => simp [countsAs]
    exact Scene.PhasesLike.literal rfl rfl (hplain ▸ hne) hchars hphs

/-- An alternative with its literals taken apart, given what is known of its symbols. -/
theorem phasesLike_apart {N : String → String → Prop} {leaf : String → Prop} {t : Table} {n : Nat}
    {answers answers' : Answers} (hanswers : Table.AnswersLike N leaf t n answers answers')
    (h : Apart texts symbols symbols') (htexts : ∀ text ∈ texts, IsQuote text)
    (hkeeps : ∀ value, .literal value ∈ symbols → keepsText (Literal.quote value) = true)
    (hpin : ∀ s ∈ symbols, s.asReference.pin = false) (hrule : ∀ s ∈ symbols, ∀ name, s.RefersTo name → N name name) :
    Scene.PhasesLike answers answers' n (symbols.map Symbol.phase) (symbols'.map Symbol.phase) := by
  obtain ⟨parts, hparts, rfl⟩ := h
  induction hparts with
  | nil => exact .nil
  | @cons texts more s part symbols parts hs _ ih =>
    rw [List.forall_mem_append] at htexts
    rw [List.forall_mem_cons] at hpin hrule
    have hmore := ih htexts.2 (fun value hvalue => hkeeps value (List.mem_cons_of_mem _ hvalue)) hpin.2 hrule.2
    rw [List.map_cons, List.flatten_cons, List.map_append]
    rcases hs.cases_quote htexts.1 with ⟨value, rfl, hquoted, hsplit⟩ | ⟨rfl, -⟩
    · exact phasesLike_literal hquoted hsplit (hkeeps value List.mem_cons_self) hmore
    · refine hmore.cons (hanswers.phaseLike hpin.1 fun name htarget => hrule.1 name (Symbol.needs?_eq_some_iff.1 ?_))
      have htarget : s.target = .rule name := htarget
      rw [Symbol.needs?, htarget]

end Literals

/-! ## Parses -/

section Parses

variable {rules rules' : List Rule} {texts names : List String} {t t' : Table}

/-- The rules with these names, as far as there are such rules, correspond to themselves. -/
def KeptName (rules : List Rule) (names : List String) (a a' : String) : Prop :=
  a = a' ∧ a ∈ names ∧ a ∈ rules.map (·.name)

/-- A rule that commits nowhere. -/
def CommitsNowhere (r : Rule) : Prop := ∀ a ∈ r.alternatives, ∀ s ∈ a, s.asReference.pin = false

/-- A rule that commits nowhere does not do so with its literals split. -/
theorem CommitsNowhere.apart {r : Rule} (h : CommitsNowhere r) {alternatives : List (List Symbol)}
    (hapart : Along Apart texts r.alternatives alternatives) (htexts : ∀ text ∈ texts, IsQuote text) :
    CommitsNowhere { r with alternatives } := by
  intro alt' halt' s hs
  obtain ⟨alt, halt, texts, htexts, happly⟩ := exists_mem_of_forall₂ (hapart.pairs htexts) halt'
  cases s with
  | reference q => exact h alt halt _ ((sameReferences_apart happly htexts).mem q hs)
  | literal value => rfl
  | pattern p => rfl

/-- Among names that keep to themselves, a rule refers to these only. -/
theorem keepsSymbol_of_keptAmong (h : keptAmong rules names = true) {r : Rule} (hr : r ∈ rules) (hname : r.name ∈ names)
    {alt : List Symbol} (halt : alt ∈ r.alternatives) : ∀ s ∈ alt, keepsSymbol names s = true := by
  have hrule := List.all_eq_true.1 h r hr
  rw [List.contains_iff_mem.2 hname] at hrule
  exact List.all_eq_true.1 (List.all_eq_true.1 hrule alt halt)

theorem mem_of_keepsSymbol {s : Symbol} (h : keepsSymbol names s = true) {name : String} (hrefers : s.RefersTo name) :
    name ∈ names := by
  have hneeds := Symbol.needs?_eq_some_iff.2 hrefers
  obtain ⟨q, rfl, -⟩ := hrefers
  rw [keepsSymbol, hneeds] at h
  · exact List.contains_iff_mem.1 h
  · simp

/-- The rules that accepted rules refer to are among them. -/
theorem mem_of_refersTo {whitespace : String} (hbuild : Table.build rules whitespace = .ok t)
    {r : Rule} (hr : r ∈ rules) {alt : List Symbol} (halt : alt ∈ r.alternatives)
    {s : Symbol} (hs : s ∈ alt) {name : String} (hrefers : s.RefersTo name) : name ∈ rules.map (·.name) := by
  obtain ⟨hvalid, -⟩ := Table.problems_eq_nil_iff_valid.1 (Table.build_eq_ok_iff.1 hbuild).1
  have hresolved :=
    hvalid.resolved _ (List.mem_map_of_mem hr) alt (by rwa [Rule.settled_alternatives]) s hs name hrefers
  simpa using hresolved

/-- Rules that mean the same with their literals taken apart are alike in both tables. -/
theorem like_of_keptAmong {whitespace : String} (h : RulesApart texts rules rules')
    (htexts : ∀ text ∈ texts, IsQuote text) (hplain : ∀ r ∈ rules, r.IsPlain ∧ CommitsNowhere r)
    (hbuild : Table.build rules whitespace = .ok t) (hbuild' : Table.build rules' whitespace = .ok t')
    (hkept : keptAmong rules names = true) : Table.Like (KeptName rules names) (fun _ => False) t t' where
  unique := by
    rintro a _ b _ ⟨rfl, -⟩ ⟨rfl, -⟩
    rfl
  apart _ _ _ := id
  leaves _ hfalse := hfalse.elim
  entries := by
    rintro a _ ⟨rfl, ha, hdeclared⟩
    obtain ⟨r, hr, rfl⟩ := List.mem_map.1 hdeclared
    obtain ⟨r', hr', texts, htexts, alternatives, halternatives, rfl⟩ := exists_mem_of_forall₂ (h.pairs htexts).flip hr
    obtain ⟨hrule, hpin⟩ := hplain r hr
    have hpin' := hpin.apart halternatives htexts
    have hrule' : Rule.IsPlain { r with alternatives } := ⟨hrule.tight, hrule.strict, hrule.free, hrule.whole⟩
    refine ⟨_, _, (Table.entry?_eq_some_iff hbuild).2 ⟨r, hr, rfl, rfl⟩,
      (Table.entry?_eq_some_iff hbuild').2 ⟨_, hr', rfl, rfl⟩, ?_, ?_, ?_, .inl rfl, ?_⟩
    · refine Table.Entry.isPlain_of_rule (hrule.settled whitespace) ?_
      rwa [Rule.settled_alternatives]
    · refine Table.Entry.isPlain_of_rule (hrule'.settled whitespace) ?_
      rwa [Rule.settled_alternatives]
    · rw [Rule.settled_fragment, Rule.settled_fragment]
    · intro n answers answers' hanswers
      rw [Rule.phases, Rule.phases, Rule.settled_alternatives, Rule.settled_alternatives, List.forall₂_map_left_iff,
        List.forall₂_map_right_iff]
      have hall := (List.forall₂_and_left _ _).2 ⟨fun alt halt => halt, halternatives.pairs htexts⟩
      refine hall.imp ?_
      rintro alt alt' ⟨halt, texts, htexts, happly⟩
      have hkeeps := keepsSymbol_of_keptAmong hkept hr ha halt
      refine phasesLike_apart hanswers happly htexts (fun value hvalue => hkeeps _ hvalue) (hpin alt halt) ?_
      intro s hs name hrefers
      exact ⟨rfl, mem_of_keepsSymbol (hkeeps s hs) hrefers, mem_of_refersTo hbuild hr halt hs hrefers⟩

/-- **Where literals mean the same taken apart, so do the rules.** They are accepted with their literals taken apart,
and parses from rules that only reach such literals come to the same. -/
theorem parses_of_rulesApart (h : RulesApart texts rules rules') (htexts : ∀ text ∈ texts, IsQuote text)
    (hplain : ∀ r ∈ rules, r.IsPlain ∧ CommitsNowhere r) {options : Options} {p : Parser}
    (hbuild : Parser.build rules options = .ok p) :
    ∃ p', Parser.build rules' options = .ok p' ∧ ∀ names, keptAmong rules names = true → ∀ name ∈ names,
      ∀ input, p'.parse input (some name) = p.parse input (some name) := by
  obtain ⟨htable, rfl⟩ := Parser.build_eq_ok_iff.1 hbuild
  have hrephrases := rephrases_rulesApart h htexts
  obtain ⟨p', hp'⟩ : ∃ p', Parser.build rules' p.options = .ok p' :=
    ⟨⟨_, p.options⟩, Parser.build_eq_ok_iff.2 ⟨Table.build_of_rephrases hrephrases htable, rfl⟩⟩
  obtain ⟨htable', hoptions⟩ := Parser.build_eq_ok_iff.1 hp'
  refine ⟨p', hp', fun names hkept name hname input => ?_⟩
  by_cases hdeclared : name ∈ rules.map (·.name)
  · have hlike := like_of_keptAmong h htexts hplain htable htable' hkept
    exact Parser.parse_like hlike hoptions (.inr fun _ => id) ⟨rfl, hname, hdeclared⟩ input
  · have hdeclared' : name ∉ rules'.map (·.name) := by rwa [Table.names_of_rephrases hrephrases]
    rw [Parser.parse_undeclared hbuild hdeclared, Parser.parse_undeclared hp' hdeclared']

end Parses

end Notation

end Grammarian
