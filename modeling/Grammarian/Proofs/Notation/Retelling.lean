import Grammarian.Proofs.Notation.Rereading

/-!
# Texts written again

What is read of the text of rules is written as the same text, as long as no helper loses its parentheses. A helper
for one terminal may be gone by then, and those that are left may have other numbers; no text tells.
-/

namespace Grammarian.Notation

/-- A helper for the parentheses around a helper of one terminal. Both are written as one pair of parentheses, and
with no parentheses the next time. -/
def losesParentheses (rules : List Rule) (h : Rule) : Bool :=
  match h.alternatives with
  | [[.reference r]] => r.isPlain && (helperOf? rules r.name).any isLonely
  | _ => false

/-- No helper loses its parentheses. -/
def keepsParentheses (rules : List Rule) : Bool :=
  rules.all fun h => !(isHelperName h.name && losesParentheses rules h)

/-- A terminal is read of what is written of a terminal, or of a helper for one without marks. -/
def Told (rules : List Rule) (s s' : Symbol) : Prop :=
  s'.isTerminal = true →
    s.isTerminal = true ∨ ∃ r, s = .reference r ∧ r.isPlain = true ∧ (helperOf? rules r.name).any isLonely = true

variable {style : Style} {rules again new more : List Rule} {depth n n' n'' : Nat} {parent name : String}
  {scope : Attributes} {symbols symbols' front front' back back' : List Symbol}
  {alternatives alternatives' : List (List Symbol)} {s s' t : Symbol} {h k r : Rule} {p : Pattern}
  {lead text tail : List Char} {kind : String}

/-! ## Helpers of one terminal -/

/-- A helper without parentheses is one for a terminal. -/
theorem exists_of_isLonely (h : isLonely r = true) : ∃ t : Symbol, t.isTerminal = true ∧ r.alternatives = [[t]] := by
  rw [isLonely] at h
  split at h
  next value heq => exact ⟨_, rfl, heq⟩
  next p heq => exact ⟨_, rfl, heq⟩
  next => cases h

/-- A rule with one terminal for its body is lonely. -/
theorem isLonely_of_terminal (ht : t.isTerminal = true) (h : r.alternatives = [[t]]) : isLonely r = true := by
  cases t with
  | literal value => rw [isLonely, h]
  | pattern p => rw [isLonely, h]
  | reference r => cases ht

/-- A helper that is found keeps its parentheses if all of them do. -/
theorem losesParentheses_of_found (hkeeps : keepsParentheses rules = true) (hh : helperOf? rules name = some h) :
    losesParentheses rules h = false := by
  obtain ⟨hmem, hname⟩ := List.mem_filter.1 (List.mem_of_getLast? hh)
  simp only [Bool.and_eq_true, decide_eq_true_eq] at hname
  have hall := List.all_eq_true.1 hkeeps h hmem
  rw [hname.1] at hall
  simpa using hall

/-- The helper of a group that loses no parentheses is no helper of a terminal when it is read again. -/
theorem isLonely_of_told (htold : List.Forall₂ (List.Forall₂ (Told rules)) h.alternatives r.alternatives)
    (hlonely : isLonely h = false) (hkeeps : losesParentheses rules h = false) : isLonely r = false := by
  refine Bool.eq_false_iff.2 fun hr => ?_
  obtain ⟨t, ht, heq⟩ := exists_of_isLonely hr
  rw [heq] at htold
  generalize halternatives : h.alternatives = alternatives at htold
  cases htold with
  | cons hfirst hmore =>
    cases hmore
    cases hfirst with
    | cons hs hrest =>
      cases hrest
      rcases hs ht with hterminal | ⟨q, rfl, hplain, hq⟩
      · rw [isLonely_of_terminal hterminal halternatives] at hlonely
        cases hlonely
      · simp [losesParentheses, halternatives, hplain, hq] at hkeeps

/-! ## Symbols -/

/-- Symbols from what is written of which others are read, and are written alike. -/
structure Retells (style : Style) (rules : List Rule) (depth : Nat) (parent : String) (scope : Attributes) (n : Nat)
    (symbols : List Symbol) (new : List Rule) (symbols' : List Symbol) (n' : Nat) : Prop extends
    Rereads style rules depth parent scope n symbols new symbols' n' where
  told : List.Forall₂ (Told rules) symbols symbols'
  again : keepsParentheses rules = true → ∀ (again : List Rule) (d : Nat), Finds again new → new.length ≤ d →
    symbols'.map (written style again d) = symbols.map (written style rules depth)

namespace Retells

theorem nil : Retells style rules depth parent scope n [] [] [] n where
  toRereads := .nil
  told := .nil
  again _ _ _ _ _ := rfl

/-- One symbol, for which one is read. -/
theorem single (hreads : Rereads style rules depth parent scope n [s] new [s'] n') (htold : Told rules s s')
    (hagain : keepsParentheses rules = true → ∀ (again : List Rule) (d : Nat), Finds again new → new.length ≤ d →
      written style again d s' = written style rules depth s) :
    Retells style rules depth parent scope n [s] new [s'] n' where
  toRereads := hreads
  told := .cons htold .nil
  again hkeeps again d hfound hd := by rw [List.map_singleton, List.map_singleton, hagain hkeeps again d hfound hd]

/-- Symbols one after another are written again one after another. -/
theorem append (hfront : Retells style rules depth parent scope n front new front' n')
    (hback : Retells style rules depth parent scope n' back more back' n'') :
    Retells style rules depth parent scope n (front ++ back) (new ++ more) (front' ++ back') n'' where
  toRereads := hfront.toRereads.append hback.toRereads
  told := List.rel_append hfront.told hback.told
  again hkeeps again d hfound hd := by
    rw [finds_append] at hfound
    rw [List.length_append] at hd
    rw [List.map_append, List.map_append, hfront.again hkeeps again d hfound.1 (by omega),
      hback.again hkeeps again d hfound.2 (by omega)]

end Retells

/-- Alternatives from what is written of which others are read, and are written alike. -/
structure RetellsAll (style : Style) (rules : List Rule) (depth : Nat) (parent : String) (scope : Attributes) (n : Nat)
    (alternatives : List (List Symbol)) (new : List Rule) (alternatives' : List (List Symbol)) (n' : Nat) : Prop extends
    RereadsAll style rules depth parent scope n alternatives new alternatives' n' where
  told : List.Forall₂ (List.Forall₂ (Told rules)) alternatives alternatives'
  again : keepsParentheses rules = true → ∀ (again : List Rule) (d : Nat), Finds again new → new.length ≤ d →
    alternatives'.map (·.map (written style again d)) = alternatives.map (·.map (written style rules depth))

namespace RetellsAll

theorem nil : RetellsAll style rules depth parent scope n [] [] [] n where
  toRereadsAll := .nil
  told := .nil
  again _ _ _ _ _ := rfl

/-- Alternatives are written again one after another. -/
theorem cons (hfront : Retells style rules depth parent scope n symbols new symbols' n')
    (hback : RetellsAll style rules depth parent scope n' alternatives more alternatives' n'') :
    RetellsAll style rules depth parent scope n (symbols :: alternatives) (new ++ more) (symbols' :: alternatives')
      n'' where
  toRereadsAll := .cons hfront.toRereads hback.toRereadsAll
  told := .cons hfront.told hback.told
  again hkeeps again d hfound hd := by
    rw [finds_append] at hfound
    rw [List.length_append] at hd
    rw [List.map_cons, List.map_cons, hfront.again hkeeps again d hfound.1 (by omega),
      hback.again hkeeps again d hfound.2 (by omega)]

end RetellsAll

/-! ## Terminals and references -/

/-- A terminal that reads back is written again. -/
theorem retells_terminal (ht : ReadsBack style scope t) : Retells style rules depth parent scope n [t] [] [t] n :=
  .single (rereads_terminal ht) .inl fun _ again d _ _ => written_terminal ht.terminal again d depth

/-- Terminals that read back are written again. -/
theorem retells_terminals (h : ∀ t ∈ symbols, ReadsBack style scope t) :
    Retells style rules depth parent scope n symbols [] symbols n := by
  induction symbols with
  | nil => exact .nil
  | cons t symbols ih =>
    rw [List.forall_mem_cons] at h
    exact (retells_terminal h.1).append (ih h.2)

/-- A reference to no helper is written again. -/
theorem retells_reference (htext : Lexeme kind text) (hkind : kind = "NCName" ∨ kind = "StringLiteral")
    (hlead : IsMark style.leadMarks lead) (htail : IsMark tailMarks tail)
    (hmarks : kind = "StringLiteral" → ¬ (lead = [] ∧ tail = [])) :
    Retells style rules depth parent scope n [.reference (referenceOf lead (String.ofList text) tail)] []
      [.reference (referenceOf lead (String.ofList text) tail)] n := by
  refine .single (rereads_reference htext hkind hlead htail hmarks) nofun fun _ again d _ _ => ?_
  rw [written_token htext hkind hlead htail, written_token htext hkind hlead htail]

/-! ## Helpers -/

/-- A code or class with marks, or one in parentheses with marks, is written again. -/
theorem retells_class (hh : helperOf? rules h.name = some h) (hpattern : h.alternatives = [[.pattern p]])
    (hcoded : IsCoded p)
    (hcompile : Pattern.compile (String.ofList (CharCode.expand (CharCode.restore p.source.toList))) = .ok p)
    (hlead : IsMark style.leadMarks lead) (htail : IsMark tailMarks tail) (hmarks : ¬ (lead = [] ∧ tail = [])) :
    Retells style rules (depth + 1) parent scope n [.reference (referenceOf lead h.name tail)]
      [classHelper (helperNameAt n parent) p (scope.whitespace?.getD false)]
      [.reference (referenceOf lead (helperNameAt n parent) tail)] (n + 1) := by
  refine .single (rereads_class hh hpattern hcoded hcompile hlead htail hmarks) nofun fun _ again d hfound hd => ?_
  obtain ⟨d, rfl⟩ : ∃ e, d = e + 1 := Nat.exists_eq_add_one.2 hd
  have hfound := hfound _ List.mem_cons_self (isHelperName_helperName ⟨[], n⟩ parent)
  rw [written_helper hh hlead htail, helperItem_pattern hpattern]
  exact (written_helper hfound hlead htail d).trans (helperItem_pattern rfl _)

/-- A terminal in parentheses is written without them. -/
theorem retells_inlined (hh : helperOf? rules h.name = some h) (hterminal : h.alternatives = [[t]])
    (ht : ReadsBack style scope t) :
    Retells style rules (depth + 1) parent scope n [.reference (referenceOf [] h.name [])] [] [t] n := by
  refine .single (rereads_inlined hh hterminal ht) (fun _ => .inr ⟨_, rfl, ?_, ?_⟩) fun _ again d _ _ => ?_
  · exact (isPlain_referenceOf (.inl rfl) (.inl rfl) h.name).2 ⟨rfl, rfl⟩
  · have hname : helperOf? rules (referenceOf [] h.name []).name = some h := hh
    rw [hname]
    exact isLonely_of_terminal ht.terminal hterminal
  · rw [written_helper hh (.inl rfl) (.inl rfl), helperItem_terminal hterminal ht.terminal]
    exact written_terminal ht.terminal again d depth

/-- Quoted text in parentheses with marks is written without the parentheses. -/
theorem retells_quoted (hh : helperOf? rules h.name = some h)
    (hitem : helperItem (written style rules depth) lead h tail = .token "StringLiteral" lead text tail)
    (htext : IsQuoted text) (hlead : IsMark style.leadMarks lead) (htail : IsMark tailMarks tail)
    (hmarks : ¬ (lead = [] ∧ tail = [])) :
    Retells style rules (depth + 1) parent scope n [.reference (referenceOf lead h.name tail)] []
      [.reference (referenceOf lead (String.ofList text) tail)] n := by
  refine .single (rereads_quoted hh hitem htext hlead htail hmarks) nofun fun _ again d _ _ => ?_
  rw [written_helper hh hlead htail, hitem]
  exact written_token (.quoted htext) (.inr rfl) hlead htail d

/-- A group is written again. -/
theorem retells_group (hne : h.alternatives ≠ []) (hnes : ∀ a ∈ h.alternatives, a ≠ [])
    (hlonely : isLonely h = false) (hlead : IsMark style.leadMarks lead) (htail : IsMark tailMarks tail)
    (hh : helperOf? rules h.name = some h)
    (hall : RetellsAll style rules depth (helperNameAt n parent) scope (n + 1) h.alternatives new alternatives' n') :
    Retells style rules (depth + 1) parent scope n [.reference (referenceOf lead h.name tail)]
      (new ++ [groupHelper (helperNameAt n parent) alternatives' scope.whitespace?])
      [.reference (referenceOf lead (helperNameAt n parent) tail)] n' := by
  refine .single (rereads_group hne hnes hlonely hlead htail hh hall.toRereadsAll) nofun
    fun hkeeps again d hfound hd => ?_
  rw [List.length_append] at hd
  obtain ⟨d, rfl⟩ : ∃ e, d = e + 1 := Nat.exists_eq_add_one.2 (Nat.lt_of_lt_of_le (Nat.succ_pos _) hd)
  rw [finds_append] at hfound
  have hagain := hfound.2 _ List.mem_cons_self (isHelperName_helperName ⟨[], n⟩ parent)
  have hlonely' : isLonely (groupHelper (helperNameAt n parent) alternatives' scope.whitespace?) = false :=
    isLonely_of_told hall.told hlonely (losesParentheses_of_found hkeeps hh)
  rw [written_helper hh hlead htail, helperItem_group hlonely]
  refine ((written_helper hagain hlead htail d).trans (helperItem_group hlonely')).trans ?_
  exact congrArg (fun choice => Item.group lead choice tail)
    (hall.again hkeeps again d hfound.1 (Nat.le_of_succ_le_succ hd))

end Grammarian.Notation
