import Grammarian.Proofs.Parse.Language

/-!
# Languages taken apart

What a text of the language of a step, of an alternative or of a rule is made of. The nodes of a language can be
told without its texts: `Language.Shows`.
-/

namespace Grammarian

variable {t : Table} {isToken : String → Bool} {rules : String → Language} {text : List Char} {ns : List Node}
  {target : Target} {s : Step} {steps : List Step} {again : Bool}

namespace Language

variable {L L' : Language} {k : Nat}

/-- No text of the language has a node. -/
def Silent (L : Language) : Prop := ∀ text ns, L text ns → ns = []

/-- Some text of the language has these nodes. -/
def Shows (L : Language) (ns : List Node) : Prop := ∃ text, L text ns

/-- What shows no nodes shows none when it repeats. -/
theorem Silent.times (h : L.Silent) (k : Nat) : (L.times k).Silent := by
  induction k with
  | zero =>
    rintro text ns ⟨-, hns⟩
    exact hns
  | succ k ih =>
    rintro text ns ⟨front, back, ms, ks, -, rfl, hfront, hback⟩
    rw [h _ _ hfront, ih _ _ hback, List.append_nil]

/-- What two languages show together, they show one behind the other. -/
theorem Shows.append (h : (L.append L').Shows ns) : ∃ ms ks, ns = ms ++ ks ∧ L.Shows ms ∧ L'.Shows ks := by
  obtain ⟨-, front, back, ms, ks, -, rfl, hfront, hback⟩ := h
  exact ⟨ms, ks, rfl, ⟨front, hfront⟩, back, hback⟩

/-- The nodes of several rounds are those of one thing a round. -/
theorem Shows.times {α : Type} {P : α → Prop} {nodes : α → List Node}
    (h : ∀ {ns}, L.Shows ns → ∃ x, P x ∧ ns = nodes x) (hns : (L.times k).Shows ns) :
    ∃ xs : List α, (∀ x ∈ xs, P x) ∧ ns = xs.flatMap nodes := by
  induction k generalizing ns with
  | zero =>
    obtain ⟨-, -, rfl⟩ := hns
    exact ⟨[], nofun, rfl⟩
  | succ k ih =>
    obtain ⟨ms, ks, rfl, hms, hks⟩ := hns.append
    obtain ⟨x, hx, rfl⟩ := h hms
    obtain ⟨xs, hxs, rfl⟩ := ih hks
    exact ⟨x :: xs, List.forall_mem_cons.2 ⟨hx, hxs⟩, rfl⟩

/-- What holds of the characters of every round holds of all characters. -/
theorem forall_mem_of_times {p : Char → Prop} (h : ∀ text ns, L text ns → ∀ c ∈ text, p c)
    (htext : L.times k text ns) : ∀ c ∈ text, p c := by
  induction k generalizing text ns with
  | zero =>
    obtain ⟨rfl, -⟩ := htext
    nofun
  | succ k ih =>
    obtain ⟨front, back, ms, ks, rfl, -, hfront, hback⟩ := htext
    exact List.forall_mem_append.2 ⟨h _ _ hfront, ih hback⟩

end Language

open Grammarian.Language

/-! ## Steps -/

namespace Step

theorem language_one : (one target).language rules again text ns ↔ target.language rules text ns := by
  constructor
  · rintro ⟨k, rfl, front, back, ms, ks, rfl, rfl, htarget, rfl, rfl⟩
    rw [List.append_nil, List.append_nil]
    exact htarget
  · intro htarget
    exact ⟨1, rfl, text, [], ns, [], (List.append_nil text).symm, (List.append_nil ns).symm, htarget, rfl, rfl⟩

/-- An optional step says nothing, or what its target says. -/
theorem language_optional (h : (optional target).language rules again text ns) :
    text = [] ∧ ns = [] ∨ target.language rules text ns := by
  obtain ⟨k, hk, htimes⟩ := h
  have hk : k ≤ 1 := hk
  obtain rfl | rfl : k = 0 ∨ k = 1 := by omega
  · exact Or.inl htimes
  · have hone : (one target).language rules again text ns := ⟨1, rfl, htimes⟩
    exact Or.inr (language_one.1 hone)

/-- A step that may repeat says some number of times what its target says. -/
theorem language_star (h : (star target).language rules again text ns) :
    ∃ k, (target.language rules).times k text ns := by
  obtain ⟨k, -, htimes⟩ := h
  exact ⟨k, htimes⟩

/-- A step that repeats says it at least once. -/
theorem language_plus (h : (plus target).language rules false text ns) :
    ∃ k, (target.language rules).append ((target.language rules).times k) text ns := by
  obtain ⟨k, hk, htimes⟩ := h
  have hk : 1 ≤ k := hk.resolve_left Bool.false_ne_true
  obtain ⟨k, rfl⟩ := Nat.exists_eq_add_of_le' hk
  exact ⟨k, htimes⟩

/-- A step has no nodes where its target has none. -/
theorem silent_language (h : (s.target.language rules).Silent) : (s.language rules again).Silent := by
  intro text ns hs
  by_cases hlook : s.lookahead = .none
  · have hrounds : s.language rules again = fun text ns =>
        ∃ k, admits again s.repetition k ∧ (s.target.language rules).times k text ns := if_pos hlook
    rw [hrounds] at hs
    obtain ⟨k, -, htimes⟩ := hs
    exact h.times k text ns htimes
  · have hempty : s.language rules again = .empty := if_neg hlook
    rw [hempty] at hs
    exact hs.2

theorem silent_literal (value : List Char) : ((Target.literal value).language rules).Silent :=
  fun _ _ h => h.2

theorem silent_endOfInput : (Target.endOfInput.language rules).Silent := fun _ _ h => h.2

/-! ## Alternatives -/

/-- A text of steps falls into the text of the first and that of the others. -/
theorem languageAll_cons (h : languageAll rules (s :: steps) text ns) :
    ∃ front back ms ks, text = front ++ back ∧ ns = ms ++ ks ∧ s.language rules false front ms ∧
      languageAll rules steps back ks := h

theorem languageAll_singleton (h : languageAll rules [s] text ns) : s.language rules false text ns := by
  obtain ⟨front, back, ms, ks, rfl, rfl, hs, rfl, rfl⟩ := h
  rw [List.append_nil, List.append_nil]
  exact hs

theorem shows_cons (h : (languageAll rules (s :: steps)).Shows ns) :
    ∃ ms ks, ns = ms ++ ks ∧ (s.language rules false).Shows ms ∧ (languageAll rules steps).Shows ks :=
  Shows.append h

theorem shows_nil (h : (languageAll rules []).Shows ns) : ns = [] := by
  obtain ⟨-, -, hns⟩ := h
  exact hns

/-- Steps without nodes are passed over. -/
theorem shows_of_silent (hs : (s.target.language rules).Silent) (h : (languageAll rules (s :: steps)).Shows ns) :
    (languageAll rules steps).Shows ns := by
  obtain ⟨ms, ks, rfl, ⟨text, hms⟩, hks⟩ := shows_cons h
  rw [silent_language hs text ms hms, List.nil_append]
  exact hks

theorem shows_singleton (h : (languageAll rules [s]).Shows ns) : (s.language rules false).Shows ns := by
  obtain ⟨text, h⟩ := h
  exact ⟨text, languageAll_singleton h⟩

theorem shows_one (h : ((one target).language rules again).Shows ns) : (target.language rules).Shows ns := by
  obtain ⟨text, h⟩ := h
  exact ⟨text, language_one.1 h⟩

theorem shows_optional (h : ((optional target).language rules again).Shows ns) :
    ns = [] ∨ (target.language rules).Shows ns := by
  obtain ⟨text, h⟩ := h
  exact (language_optional h).imp And.right fun htarget => ⟨text, htarget⟩

/-- What a step that may repeat shows falls into parts, one for each time. -/
theorem shows_star {α : Type} {P : α → Prop} {nodes : α → List Node}
    (htarget : ∀ {ns}, (target.language rules).Shows ns → ∃ x, P x ∧ ns = nodes x)
    (h : ((star target).language rules again).Shows ns) :
    ∃ xs : List α, (∀ x ∈ xs, P x) ∧ ns = xs.flatMap nodes := by
  obtain ⟨text, h⟩ := h
  obtain ⟨k, htimes⟩ := language_star h
  exact Shows.times htarget ⟨text, htimes⟩

/-- So does what a step that repeats shows, with one part at least. -/
theorem shows_plus {α : Type} {P : α → Prop} {nodes : α → List Node}
    (htarget : ∀ {ns}, (target.language rules).Shows ns → ∃ x, P x ∧ ns = nodes x)
    (h : ((plus target).language rules false).Shows ns) :
    ∃ (x : α) (xs : List α), (∀ y ∈ x :: xs, P y) ∧ ns = (x :: xs).flatMap nodes := by
  obtain ⟨text, h⟩ := h
  obtain ⟨k, hrounds⟩ := language_plus h
  obtain ⟨ms, ks, rfl, hfirst, hmore⟩ := Shows.append ⟨text, hrounds⟩
  obtain ⟨x, hx, rfl⟩ := htarget hfirst
  obtain ⟨xs, hxs, rfl⟩ := Shows.times htarget hmore
  exact ⟨x, xs, List.forall_mem_cons.2 ⟨hx, hxs⟩, rfl⟩

end Step

/-! ## Rules -/

namespace Table

variable {name : String} {alts : List (List Step)}

/-- The text and the nodes of one rule, by one of its alternatives. -/
def Derives (t : Table) (isToken : String → Bool) (rules : String → Language) (name : String) : Language :=
  fun text ns => ∃ e alt inner, t.entry? name = some e ∧ alt ∈ e.steps ∧ Step.languageAll rules alt text inner ∧
    ns = e.shown isToken text inner

/-- A language that has all derivations respects the rules. -/
theorem respects_of_derives (htight : ∀ e ∈ t.entries, e.isTight = true)
    (h : ∀ name text ns, t.Derives isToken rules name text ns → rules name text ns) :
    t.Respects isToken rules where
  tight := htight
  alternative he _ halt _ _ hinner := h _ _ _ ⟨_, _, _, he, halt, hinner, rfl⟩

/-- The table has a rule of this name, a fragment or not, with these steps. -/
def lists (t : Table) (name : String) (fragment : Bool) (alts : List (List Step)) : Bool :=
  (t.entry? name).any fun e => e.rule.fragment = fragment && e.steps = alts

theorem lists_of_declares {fragment : Bool} (h : t.declares name fragment alts = true) :
    t.lists name fragment alts = true := by
  obtain ⟨e, he, -, hfragment, halts⟩ := exists_of_declares h
  exact (Option.any_eq_true _ _).2 ⟨e, he, by simp [hfragment, halts]⟩

namespace Derives

/-- A derivation follows one of the alternatives of its rule. -/
theorem exists_entry {fragment : Bool} (hrule : t.lists name fragment alts = true)
    (h : t.Derives isToken rules name text ns) :
    ∃ e : Entry, e.rule.name = name ∧ e.rule.fragment = fragment ∧ ∃ alt ∈ alts, ∃ inner,
      Step.languageAll rules alt text inner ∧ ns = e.shown isToken text inner := by
  obtain ⟨e, alt, inner, he, halt, hinner, hns⟩ := h
  obtain ⟨e', he', hsteps⟩ := (Option.any_eq_true _ _).1 hrule
  obtain rfl : e = e' := Option.some.inj (he.symm.trans he')
  simp only [Bool.and_eq_true, decide_eq_true_eq] at hsteps
  exact ⟨e, name_of_entry he, hsteps.1, alt, hsteps.2 ▸ halt, inner, hinner, hns⟩

theorem token_of_lists (hrule : t.lists name false alts = true) (htoken : isToken name = true)
    (hkeeps : Draft.keeps false name = true) (h : t.Derives isToken rules name text ns) :
    ns = [.token name text] ∧ ∃ alt ∈ alts, ∃ inner, Step.languageAll rules alt text inner := by
  obtain ⟨e, rfl, hfragment, alt, halt, inner, hinner, rfl⟩ := exists_entry hrule h
  refine ⟨?_, alt, halt, inner, hinner⟩
  rw [Entry.shown, if_neg (Bool.eq_false_iff.1 hfragment), if_pos hkeeps, if_pos htoken]

/-- A derivation of a rule whose nodes are tokens shows a token of its text. -/
theorem token (hrule : t.declares name false alts = true) (htoken : isToken name = true)
    (hkeeps : Draft.keeps false name = true) (h : t.Derives isToken rules name text ns) :
    ns = [.token name text] ∧ ∃ alt ∈ alts, ∃ inner, Step.languageAll rules alt text inner :=
  token_of_lists (lists_of_declares hrule) htoken hkeeps h

/-- A fragment shows what one of its alternatives shows. -/
theorem fragment (hrule : t.declares name true alts = true) (h : t.Derives isToken rules name text ns) :
    ∃ alt ∈ alts, Step.languageAll rules alt text ns := by
  obtain ⟨e, -, hfragment, alt, halt, inner, hinner, rfl⟩ := exists_entry (lists_of_declares hrule) h
  rw [Entry.shown, if_pos hfragment]
  exact ⟨alt, halt, hinner⟩

/-- Any other rule that is shown has one node, with what its alternative shows below. -/
theorem branch (hrule : t.declares name false alts = true) (htoken : isToken name = false)
    (hkeeps : Draft.keeps false name = true) (h : t.Derives isToken rules name text ns) :
    ∃ inner, ns = [.branch name inner] ∧ ∃ alt ∈ alts, (Step.languageAll rules alt).Shows inner := by
  obtain ⟨e, rfl, hfragment, alt, halt, inner, hinner, rfl⟩ := exists_entry (lists_of_declares hrule) h
  refine ⟨inner, ?_, alt, halt, text, hinner⟩
  rw [Entry.shown, if_neg (Bool.eq_false_iff.1 hfragment), if_pos hkeeps, if_neg (Bool.eq_false_iff.1 htoken)]

/-- An internal rule shows nothing. -/
theorem internal (hrule : t.declares name false alts = true) (hkeeps : Draft.keeps false name = false)
    (h : t.Derives isToken rules name text ns) : ns = [] := by
  obtain ⟨e, rfl, hfragment, -, -, -, -, rfl⟩ := exists_entry (lists_of_declares hrule) h
  rw [Entry.shown, if_neg (Bool.eq_false_iff.1 hfragment), if_neg (Bool.eq_false_iff.1 hkeeps)]

end Derives

end Table

end Grammarian
