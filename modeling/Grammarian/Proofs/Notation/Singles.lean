import Grammarian.Proofs.Parse.Spelling
import Grammarian.Proofs.Pattern.Runs

/-!
# Reading single characters

A target may read one character of a kind and nothing else. A rule whose alternatives are such targets is of
this sort again, and where one is repeated, the longest text of its characters is read. What a text of one kind
is followed by, is said by the character behind it.
-/

namespace Grammarian.Notation

open Pattern

/-! ## What stands behind a lexeme -/

/-- The front of `rest` is no character of this kind. -/
def Clear (p : Char → Bool) (rest : List Char) : Prop := ∀ c ∈ rest.head?, p c = false

@[simp] theorem clear_nil (p : Char → Bool) : Clear p [] := nofun

/-- A text is clear of what its first character is not. -/
@[simp] theorem clear_cons {p : Char → Bool} {c : Char} {cs : List Char} :
    Clear p (c :: cs) ↔ p c = false := by
  simp [Clear]

theorem Clear.imp {p q : Char → Bool} {rest : List Char} (h : Clear p rest)
    (hpq : ∀ c, q c = true → p c = true) : Clear q rest := by
  intro c hc
  have hp := h c hc
  cases hq : q c with
  | false => rfl
  | true => rw [hpq c hq] at hp; exact hp

/-- What a text of one kind is followed by, when it is the longest one. -/
theorem clear_dropWhile (p : Char → Bool) (cs : List Char) : Clear p (cs.dropWhile p) :=
  eq_false_of_mem_head?_dropWhile p cs

theorem Clear.append {p : Char → Bool} {front rest : List Char} (hfront : Clear p front)
    (hrest : Clear p rest) : Clear p (front ++ rest) := by
  cases front with
  | nil => exact hrest
  | cons c cs => simpa using hfront

/-! ## Targets that read one character -/

theorem contains_single (c d : Char) : (CharSet.single d).contains c = decide (c = d) := by
  rw [Bool.eq_iff_iff]
  simp only [CharSet.single, CharSet.contains, Bool.and_eq_true, decide_eq_true_eq]
  constructor
  · rintro ⟨hle, hle'⟩
    exact Char.le_antisymm hle' hle
  · rintro rfl
    exact ⟨Char.le_refl _, Char.le_refl _⟩

/-- The target reads one character of a kind without leaving a node, and is not there before any other. -/
structure ReadsChar (t : Table) (kinds : String → Bool) (target : Target) (p : Char → Bool) : Prop where
  reads {c : Char} (hc : p c = true) (rest : List Char) : target.Reads t kinds [c] rest []
  missing {input : List Char} (hinput : Clear p input) : target.Answers t input none

section Single

variable {t : Table} {kinds : String → Bool} {target : Target} {p : Char → Bool} {rest input : List Char}

/-- A character that is not there is not read. -/
theorem char_none {d : Char} (hinput : Clear (· = d) input) : (Target.literal [d]).Answers t input none :=
  Target.answers_literal_none fun c hc => of_decide_eq_false (hinput c hc)

theorem readsChar_literal (d : Char) : ReadsChar t kinds (.literal [d]) (fun c => c = d) where
  reads hc rest := by
    obtain rfl := of_decide_eq_true hc
    exact Target.reads_literal (by simp) rest
  missing hinput := char_none hinput

theorem readsChar_pattern {q : Pattern} {s : CharSet} (hq : q.regex = .one s) (hs : ∀ c, s.contains c = p c) :
    ReadsChar t kinds (.pattern q) p where
  reads hc _ := Target.reads_pattern (match?_one hq ((hs _).trans hc))
  missing hinput :=
    Target.answers_pattern_none (match?_one_eq_none hq fun c hc => (hs c).trans (hinput c hc))

/-- The alternative that is this target. -/
def oneTarget (target : Target) : List Step := [.one target]

/-- Of alternatives that read one character each, the first for the character reads it. -/
theorem readFirst_oneTarget {α : Type} {target : α → Target} {p : α → Char → Bool} {xs : List α}
    (hxs : ∀ x ∈ xs, ReadsChar t kinds (target x) (p x)) {c : Char} (hc : xs.any (p · c) = true)
    (rest : List Char) : Step.ReadFirst t kinds (xs.map (oneTarget ∘ target)) [c] rest [] := by
  induction xs with
  | nil => cases hc
  | cons x xs ih =>
    rw [List.forall_mem_cons] at hxs
    cases hx : p x c with
    | true => exact (Step.reads_one (hxs.1.reads hx rest)).alone.first
    | false =>
      have hnone : (target x).Answers t ([c] ++ rest) none := hxs.1.missing (clear_cons.2 hx)
      refine Step.ReadFirst.next (Step.rejected_of_none hnone) ?_
      exact ih hxs.2 (by simpa [hx] using hc)

/-- Alternatives of one target each are rejected if no target is there. -/
theorem rejected_oneTarget {α : Type} {target : α → Target} {xs : List α}
    (hxs : ∀ x ∈ xs, (target x).Answers t input none) :
    ∀ alt ∈ xs.map (oneTarget ∘ target), Step.Rejected t alt input := by
  intro alt halt
  obtain ⟨x, hx, rfl⟩ := List.mem_map.1 halt
  exact Step.rejected_of_none (hxs x hx)

/-- A rule that is left out of trees, each of whose alternatives reads one character. -/
theorem readsChar_rule {name : String} {qs : List (Target × (Char → Bool))}
    (hrule : t.declares name false (qs.map (oneTarget ∘ Prod.fst)) = true) (hkeeps : Draft.keeps false name = false)
    (hqs : ∀ q ∈ qs, ReadsChar t kinds q.1 q.2) (hp : ∀ c, p c = qs.any (·.2 c)) :
    ReadsChar t kinds (.rule name) p where
  reads {c} hc rest := by
    rw [hp] at hc
    exact Target.reads_rule (Table.reads_internal hrule hkeeps (readFirst_oneTarget hqs hc rest))
  missing hinput := by
    refine Table.answers_rule_none hrule (rejected_oneTarget fun q hq => ?_)
    refine (hqs q hq).missing (hinput.imp fun c hc => ?_)
    rw [hp]
    exact List.any_eq_true.2 ⟨q, hq, hc⟩

/-- Alternatives that are one pattern each, for a character of these sets. -/
def onePattern (q : Pattern × CharSet) : List Step := [.one (.pattern q.1)]

/-- Of patterns for one character each, one takes the character. -/
theorem readFirst_onePattern {qs : List (Pattern × CharSet)} (hqs : ∀ q ∈ qs, q.1.regex = .one q.2)
    {c : Char} (hc : qs.any (·.2.contains c) = true) (rest : List Char) :
    Step.ReadFirst t kinds (qs.map onePattern) [c] rest [] :=
  readFirst_oneTarget (fun q hq => readsChar_pattern (hqs q hq) fun _ => rfl) hc rest

/-- Of patterns for one character each, none takes a character outside their sets. -/
theorem rejected_onePattern {qs : List (Pattern × CharSet)} (hqs : ∀ q ∈ qs, q.1.regex = .one q.2)
    {input : List Char} (hc : ∀ c ∈ input.head?, qs.any (·.2.contains c) = false) :
    ∀ alt ∈ qs.map onePattern, Step.Rejected t alt input := by
  refine rejected_oneTarget fun q hq => Target.answers_pattern_none (match?_one_eq_none (hqs q hq) fun c hhead => ?_)
  have hany := hc c hhead
  rw [List.any_eq_false] at hany
  simpa using hany q hq

/-- Alternatives that are one of these characters each. -/
def oneChar (c : Char) : List Step := [.one (.literal [c])]

/-- Of literals of one character each, one takes its character. -/
theorem readFirst_oneChar {cs : List Char} {c : Char} (hc : c ∈ cs) (rest : List Char) :
    Step.ReadFirst t kinds (cs.map oneChar) [c] rest [] :=
  readFirst_oneTarget (fun d _ => readsChar_literal d) (by simpa using hc) rest

/-- Of literals of one character each, none takes another character. -/
theorem rejected_oneChar {cs input : List Char} (hc : ∀ c ∈ input.head?, c ∉ cs) :
    ∀ alt ∈ cs.map oneChar, Step.Rejected t alt input :=
  rejected_oneTarget fun _ hd => Target.answers_literal_none fun c hhead hcd => hc c hhead (hcd ▸ hd)

/-! ## Texts of one kind of characters -/

namespace ReadsChar

variable {cs : List Char}

/-- What reads one character, repeated, reads as many as there are. -/
theorem readsRounds (h : ReadsChar t kinds target p) (hne : cs ≠ []) (hcs : ∀ c ∈ cs, p c = true)
    (hrest : Clear p rest) : target.ReadsRounds t kinds cs rest [] := by
  have hrounds : target.ReadsRounds t kinds (cs.flatMap fun c => [c]) rest (cs.flatMap fun _ => []) := by
    refine Target.readsRounds_flatMap hne (by simp) (fun c back hback => ?_) (Or.inr (h.missing hrest))
    exact h.reads (hcs c (hback.subset List.mem_cons_self)) _
  have hnone : cs.flatMap (fun _ => ([] : List Node)) = [] := List.flatMap_eq_nil_iff.2 fun _ _ => rfl
  rwa [List.flatMap_singleton', hnone] at hrounds

/-- Where such a target may be repeated or missing, the longest text of its characters is read. -/
theorem skims_star (h : ReadsChar t kinds target p) (hcs : ∀ c ∈ cs, p c = true) (hrest : Clear p rest) :
    (Step.star target).Skims t kinds cs rest [] := by
  by_cases hne : cs = []
  · subst hne
    exact Step.skims_star_of_none (h.missing hrest)
  · exact (Step.reads_star (h.readsRounds hne hcs hrest)).skims

end ReadsChar

end Single

end Grammarian.Notation
